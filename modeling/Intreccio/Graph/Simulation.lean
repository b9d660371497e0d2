import Intreccio.Graph.PropertyGraph
import Intreccio.Graph.Runs
import Mathlib.Data.List.Dedup

/-! The store simulates the abstract property graph: read through the dictionaries, its records
are the nodes and edges of the graph, and each operation moves both alike.
-/

namespace Intreccio.Graph

open Kv Kv.Program Words Codec Catalog List

variable {rule : ScanRule Bytes Bytes} {s s' base : Store} {g : PropertyGraph} {n : UInt64}

/-- A property map by key ID says the same as one by name. -/
structure PropsView (s : Store) (p : Props) (f : Str → Option Val) : Prop where
  named : ∀ key, f key = (idOf s .key key).bind p.get
  known : ∀ k, p.get k ≠ none → ∃ key, idOf s .key key = some k

/-- Label IDs say the same as a set of names. -/
structure LabelsView (s : Store) (ids : List UInt32) (names : Set Str) : Prop where
  named : ∀ name, name ∈ names ↔ ∃ id ∈ ids, idOf s .label name = some id
  known : ∀ id ∈ ids, ∃ name, idOf s .label name = some id

structure NodeView (s : Store) (r : NodeRecord) (v : Vertex) : Prop where
  labels : LabelsView s r.labels v.labels
  props : PropsView s r.props v.props

structure EdgeView (s : Store) (r : EdgeRecord) (a : Arc) : Prop where
  type : idOf s .type a.type = some r.type
  src : r.src = a.src
  dst : r.dst = a.dst
  props : PropsView s r.props a.props

/-- The records are the nodes and edges of the graph. -/
structure Simulates (s : Store) (g : PropertyGraph) : Prop where
  nodes : ∀ n, Option.Rel (NodeView s) (nodeAt s n) (g.nodes n)
  edges : ∀ e, Option.Rel (EdgeView s) (edgeAt s e) (g.edges e)

theorem Simulates.empty : Simulates .empty .empty := ⟨fun _ => .none, fun _ => .none⟩

/-- The dictionaries are in order and know what they knew. -/
structure Extends (s s' : Store) : Prop where
  ordered : ∀ d, Dictionary s' d
  keeps : ∀ d name id, idOf s d name = some id → idOf s' d name = some id

theorem Advance.extends {nodes edges : List UInt64} (advance : Advance nodes edges s s')
    (ordered : ∀ d, Dictionary s d)
    : Extends s s' :=
  ⟨advance.ordered ordered, advance.keeps⟩

theorem Interned.extends (interned : Interned s s') (ordered : ∀ d, Dictionary s d) : Extends s s' :=
  ⟨interned.ordered ordered, interned.keeps⟩

variable {f : Str → Option Val} {p : Props}

/-- Views survive new names: a new ID is the ID of no old name, so no old record uses it. -/
theorem PropsView.extend (view : PropsView s p f) (larger : Extends s s') : PropsView s' p f := by
  refine ⟨fun key => ?_, fun k held => ?_⟩
  · rw [view.named]
    cases old : idOf s .key key with
    | some id => rw [larger.keeps _ _ _ old]
    | none =>
      cases new : idOf s' .key key with
      | none => rfl
      | some id =>
        by_contra used
        obtain ⟨other, known⟩ := view.known id (fun absent => used absent.symm)
        have same := (larger.ordered .key).inj new (larger.keeps _ _ _ known)
        rw [same, known] at old
        cases old
  · obtain ⟨key, known⟩ := view.known k held
    exact ⟨key, larger.keeps _ _ _ known⟩

variable {names : Set Str} {ids : List UInt32} {r : NodeRecord} {v : Val} {e : UInt64} {k : UInt32} {key : Str}

theorem LabelsView.extend (view : LabelsView s ids names) (larger : Extends s s')
    : LabelsView s' ids names := by
  refine ⟨fun name => ?_, fun id member => ?_⟩
  · rw [view.named]
    constructor
    · intro found
      obtain ⟨id, member, known⟩ := found
      exact ⟨id, member, larger.keeps _ _ _ known⟩
    · intro found
      obtain ⟨id, member, new⟩ := found
      obtain ⟨other, known⟩ := view.known id member
      have same := (larger.ordered .label).inj new (larger.keeps _ _ _ known)
      exact ⟨id, member, same ▸ known⟩
  · obtain ⟨name, known⟩ := view.known id member
    exact ⟨name, larger.keeps _ _ _ known⟩

theorem NodeView.extend {v : Vertex} (view : NodeView s r v)
    (larger : Extends s s')
    : NodeView s' r v :=
  ⟨view.labels.extend larger, view.props.extend larger⟩

theorem EdgeView.extend {r : EdgeRecord} {a : Arc} (view : EdgeView s r a)
    (larger : Extends s s')
    : EdgeView s' r a :=
  ⟨larger.keeps _ _ _ view.type, view.src, view.dst, view.props.extend larger⟩

section Related

variable {α β : Type} {R R' : α → β → Prop} {a : Option α} {b : Option β}

theorem rel_mono (more : ∀ a b, R a b → R' a b) (related : Option.Rel R a b) : Option.Rel R' a b := by
  cases related with
  | some both => exact .some (more _ _ both)
  | none => exact .none

theorem rel_isSome (related : Option.Rel R a b) : b.isSome = a.isSome := by cases related <;> rfl

theorem rel_left {x : α} (related : Option.Rel R a b) (found : a = some x) : ∃ y, b = some y ∧ R x y := by
  cases related with
  | some both => exact ⟨_, rfl, Option.some.inj found ▸ both⟩
  | none => cases found

theorem rel_right {y : β} (related : Option.Rel R a b) (there : b = some y) : ∃ x, a = some x ∧ R x y := by
  cases related with
  | some both => exact ⟨_, rfl, Option.some.inj there ▸ both⟩
  | none => cases there

end Related

theorem Simulates.setNode (simulates : Simulates s g) (larger : Extends s s')
    (framed : Framed (NodeOrCatalog n) s s') {v : Option Vertex}
    (here : Option.Rel (NodeView s') (nodeAt s' n) v)
    : Simulates s' (g.setNode n v) := by
  refine ⟨fun m => ?_, fun e => ?_⟩
  · by_cases same : m = n
    · subst same
      simpa [PropertyGraph.setNode] using here
    · rw [nodeAt_congr (framed.frame (.node m) (by simp [NodeOrCatalog, NodeKey, CatalogKey, same]))]
      simpa [PropertyGraph.setNode, same] using
        rel_mono (fun r v view => view.extend larger) (simulates.nodes m)
  · rw [edgeAt_congr (framed.frame (.edge e) (by simp [NodeOrCatalog, NodeKey, CatalogKey]))]
    exact rel_mono (fun r a view => view.extend larger) (simulates.edges e)

theorem Simulates.setEdge (simulates : Simulates s g) (larger : Extends s s')
    (framed : Framed (EdgeOrCatalog e) s s') {a : Option Arc}
    (here : Option.Rel (EdgeView s') (edgeAt s' e) a)
    : Simulates s' (g.setEdge e a) := by
  refine ⟨fun m => ?_, fun e' => ?_⟩
  · rw [nodeAt_congr (framed.frame (.node m) (by simp [EdgeOrCatalog, OfEdge, CatalogKey]))]
    exact rel_mono (fun r v view => view.extend larger) (simulates.nodes m)
  · by_cases same : e' = e
    · subst same
      simpa [PropertyGraph.setEdge] using here
    · rw [edgeAt_congr (framed.frame (.edge e') (by simp [EdgeOrCatalog, OfEdge, CatalogKey, same]))]
      simpa [PropertyGraph.setEdge, same] using
        rel_mono (fun r a view => view.extend larger) (simulates.edges e')

/-- A record is there exactly when the graph has the node. -/
theorem Simulates.node_isSome (simulates : Simulates s g) (m : UInt64)
    : (g.nodes m).isSome = (nodeAt s m).isSome :=
  rel_isSome (simulates.nodes m)

theorem Simulates.edge_isSome (simulates : Simulates s g) (e : UInt64)
    : (g.edges e).isSome = (edgeAt s e).isSome :=
  rel_isSome (simulates.edges e)

theorem Simulates.node (simulates : Simulates s g) (found : nodeAt s n = some r)
    : ∃ v, g.nodes n = some v ∧ NodeView s r v :=
  rel_left (simulates.nodes n) found

/-- Editing the record of a node as the graph edits the node. -/
theorem Simulates.editNode {r' : NodeRecord} {f : Vertex → Vertex} (simulates : Simulates s g)
    (larger : Extends s s') (framed : Framed (NodeOrCatalog n) s s')
    (found : nodeAt s n = some r) (stored : nodeAt s' n = some r')
    (moved : ∀ v, NodeView s r v → NodeView s' r' (f v))
    : ∃ g', g.editNode n f = some g' ∧ Simulates s' g' := by
  obtain ⟨v, there, view⟩ := simulates.node found
  refine ⟨g.setNode n (some (f v)), by simp [PropertyGraph.editNode, there], ?_⟩
  apply simulates.setNode larger framed
  rw [stored]
  exact .some (moved v view)

mutual

/-- A value without a Go `int`, at any depth: records give back every other value as it is. -/
def native : Val → Bool
  | .goInt _ => false
  | .list items => nativeItems items
  | .map entries => nativeEntries entries
  | _ => true

def nativeItems : List Val → Bool
  | [] => true
  | v :: rest => native v && nativeItems rest

def nativeEntries : List (Str × Val) → Bool
  | [] => true
  | (_, v) :: rest => native v && nativeEntries rest

end

mutual

theorem recForm_native (v : Val) (h : native v = true) : recForm v = v := by
  cases v with
  | list items =>
    rw [native] at h
    rw [recForm, recItems_native items h]
  | map entries =>
    rw [native] at h
    rw [recForm, recEntries_native entries h]
  | goInt i => simp [native] at h
  | _ => rw [recForm] <;> simp

theorem recItems_native (items : List Val) (h : nativeItems items = true) : recItems items = items := by
  cases items with
  | nil => rfl
  | cons v rest =>
    rw [nativeItems, Bool.and_eq_true] at h
    rw [recItems, recForm_native v h.1, recItems_native rest h.2]

theorem recEntries_native (entries : List (Str × Val)) (h : nativeEntries entries = true)
    : recEntries entries = entries := by
  cases entries with
  | nil => rfl
  | cons entry rest =>
    obtain ⟨k, v⟩ := entry
    rw [nativeEntries, Bool.and_eq_true] at h
    rw [recEntries, recForm_native v h.1, recEntries_native rest h.2]

end

theorem normalize_native (h : native v = true) : normalize v = v := by
  cases v with
  | goInt i => simp [native] at h
  | _ => rfl

theorem recProps_settled (settled : ∀ k v, p.get k = some v → recForm v = v) : recProps p = p := by
  apply OrderedMap.ext
  intro k
  rw [recProps, OrderedMap.get_mapValues]
  cases held : p.get k with
  | none => rfl
  | some v => rw [Option.map_some, settled k v held]

theorem recForm_of_storable (storable : StorableProps p)
    (held : p.get k = some v)
    : recForm v = v := by
  have same := congrArg (fun q => q.get k) storable.settled
  simpa [recProps, held] using same

theorem LabelsView.perm {ids' : List UInt32} (view : LabelsView s ids names) (perm : ids'.Perm ids)
    : LabelsView s ids' names :=
  ⟨fun name => by simp [view.named, perm.mem_iff], fun id member =>
    view.known id (perm.mem_iff.mp member)⟩

/-- One property changes under its name as it changes under its ID. -/
theorem PropsView.update {p q : Props} {x : Option Val}
    (view : PropsView s p f) (dict : Dictionary s .key) (known : idOf s .key key = some k)
    (changed : ∀ k', q.get k' = if k' = k then x else p.get k')
    : PropsView s q (Function.update f key x) := by
  refine ⟨fun key' => ?_, fun k' held => ?_⟩
  · by_cases same : key' = key
    · subst same
      simp [known, changed]
    · rw [Function.update_of_ne same, view.named]
      cases other : idOf s .key key' with
      | none => rfl
      | some k' =>
        have apart : k' ≠ k := by
          intro equal
          exact same (dict.inj other (equal ▸ known))
        simp [changed, apart]
  · by_cases same : k' = k
    · exact ⟨key, same ▸ known⟩
    · rw [changed, if_neg same] at held
      exact view.known k' held

variable {o : MapOrder}

/-- What the interned entries say: each kept value under its name. -/
theorem PropsView.interned {skipNull : Bool} {props : OrderedMap Str Val}
    (ordered : ∀ d, Dictionary s d)
    (ran : (internEntries skipNull (o.range props.entries) .empty).Exec rule s (.ok p) s')
    : PropsView s' p (fun key => (props.get key).bind
        (fun v => if skipNull && isNull v then none else some (normalize v))) := by
  obtain ⟨learned, origin, others, kept⟩ := interned_internEntries ran
  have fresh : ((o.range props.entries).map Prod.fst).Nodup := by
    apply ((o.range_perm props.entries).map Prod.fst).nodup_iff.mpr
    exact pairwise_map.mpr (props.sorted.imp (fun below => ne_of_lt below))
  have entry (e : Str × Val) : e ∈ o.range props.entries ↔ props.get e.1 = some e.2 := by
    rw [MapOrder.mem_range, OrderedMap.get_eq_some_iff]
  refine ⟨fun key => ?_, fun k held => ?_⟩
  · -- The entry of the key, if it is kept, is the only one that can set the key's ID.
    by_cases listed : ∃ v, props.get key = some v ∧ (skipNull && isNull v) = false
    · obtain ⟨v, given, keep⟩ := listed
      obtain ⟨id, known, held⟩ := kept ordered fresh (key, v) ((entry (key, v)).mpr given) keep
      simp only [given, known, Option.bind_some, keep, Bool.false_eq_true, if_false, held]
    · have absent : ((props.get key).bind
          (fun v => if skipNull && isNull v then none else some (normalize v))) = none := by
        cases given : props.get key with
        | none => rfl
        | some v =>
          have skipped : (skipNull && isNull v) = true :=
            (Bool.not_eq_false _).mp (fun keep => listed ⟨v, given, keep⟩)
          simp only [Option.bind_some, skipped, if_true]
      rw [absent]
      cases known : idOf s' .key key with
      | none => rfl
      | some id =>
        symm
        apply others id
        intro e member keep same
        have equal := ((learned.ordered ordered) .key).inj same known
        exact listed ⟨e.2, equal ▸ (entry e).mp member, keep⟩
  · obtain ⟨v, held⟩ := Option.ne_none_iff_exists'.mp held
    rcases origin k v held with before | ⟨e, _, _, known, _⟩
    · simp at before
    · exact ⟨e.1, known⟩

/-- A body that leaves the forward entries alone leaves the names alone. -/
theorem Framed.idOf {K : Key → Prop} (framed : Framed K s s')
    (outside : ∀ d name, ¬ K (.forward d name)) (d : Dict) (name : Str)
    : idOf s' d name = Graph.idOf s d name := by
  rw [Graph.idOf, Graph.idOf, framed.frame _ (outside d name)]

/-- An extension seen from after a change that leaves the names alone. -/
theorem Extends.ofFramed {K : Key → Prop} (framed : Framed K s s')
    (outside : ∀ d name, ¬ K (.forward d name)) (ordered : ∀ d, Dictionary s' d)
    : Extends s s' :=
  ⟨ordered, fun d name id known => by rwa [framed.idOf outside]⟩

theorem NodeView.recorded {v : Vertex} (labels : LabelsView s r.labels v.labels)
    (props : PropsView s r.props v.props)
    (settled : ∀ k x, r.props.get k = some x → recForm x = x)
    : NodeView s (recorded r) v := by
  refine ⟨labels.perm (perm_insertionSort _ _), ?_⟩
  rw [Graph.recorded, recProps_settled settled]
  exact props

variable {labels : List Str}

theorem LabelsView.intern {seen : List UInt32} (view : LabelsView s seen names)
    (ordered : ∀ d, Dictionary s d) (ran : (internLabels seen labels).Exec rule s (.ok ids) s')
    : LabelsView s' (seen ++ ids) (names ∪ {l | l ∈ labels}) := by
  obtain ⟨learned, _, all, members⟩ := interned_internLabels ran
  have old := view.extend (learned.extends ordered)
  have dict := learned.ordered ordered .label
  refine ⟨fun name => ?_, fun id member => ?_⟩
  · simp only [mem_append, Set.mem_union, Set.mem_ofPred_eq]
    constructor
    · intro either
      rcases either with before | named
      · obtain ⟨id, member, known⟩ := (old.named name).mp before
        exact ⟨id, .inl member, known⟩
      · obtain ⟨id, known⟩ := all name named
        by_cases had : id ∈ seen
        · exact ⟨id, .inl had, known⟩
        · exact ⟨id, .inr ((members id).mpr ⟨had, name, named, known⟩), known⟩
    · intro found
      obtain ⟨id, member | member, known⟩ := found
      · exact .inl ((old.named name).mpr ⟨id, member, known⟩)
      · obtain ⟨_, other, named, same⟩ := (members id).mp member
        exact .inr (dict.inj same known ▸ named)
  · rcases mem_append.mp member with before | new
    · exact old.known id before
    · obtain ⟨_, name, _, known⟩ := (members id).mp new
      exact ⟨name, known⟩

theorem LabelsView.remove {toRemove : List UInt32} (view : LabelsView s ids names)
    (dict : Dictionary s .label)
    (members : ∀ id, id ∈ toRemove ↔ ∃ name ∈ labels, idOf s .label name = some id)
    : LabelsView s (ids.filter (· ∉ toRemove)) (names \ {l | l ∈ labels}) := by
  refine ⟨fun name => ?_, fun id member => view.known id (mem_filter.mp member).1⟩
  simp only [Set.mem_sdiff, Set.mem_ofPred_eq, mem_filter, decide_eq_true_eq]
  constructor
  · intro both
    obtain ⟨id, member, known⟩ := (view.named name).mp both.1
    refine ⟨id, ⟨member, fun removed => ?_⟩, known⟩
    obtain ⟨other, named, same⟩ := (members id).mp removed
    exact both.2 (dict.inj same known ▸ named)
  · intro found
    obtain ⟨id, ⟨member, stays⟩, known⟩ := found
    exact ⟨(view.named name).mpr ⟨id, member, known⟩,
      fun named => stays ((members id).mpr ⟨name, named, known⟩)⟩

/-- A property that no ID holds can be forgotten. -/
theorem PropsView.forget (view : PropsView s p f)
    (absent : ∀ k, idOf s .key key = some k → p.get k = none)
    : PropsView s p (Function.update f key none) := by
  have nothing : f key = none := by
    rw [view.named]
    cases known : idOf s .key key with
    | none => rfl
    | some k => exact absent k known
  rwa [← nothing, Function.update_eq_self]

def NativeProps (props : GoMap) : Prop := ∀ key v, props.val.get key = some v → native v = true

theorem NodeOrDict.orCatalog (κ : Key) (inside : NodeOrDict n κ) : NodeOrCatalog n κ :=
  inside.imp_right (DictKey.catalog κ)

variable {props : GoMap}

/-- The values interned from native properties. -/
theorem native_internEntries {skipNull : Bool} (plain : NativeProps props)
    (ran : (internEntries skipNull (o.range props.val.entries) .empty).Exec rule s (.ok p) s')
    (held : p.get k = some v)
    : native v = true := by
  rcases (interned_internEntries ran).2.1 k v held with before | ⟨e, member, _, _, rfl⟩
  · simp at before
  · have entry := plain e.1 e.2 (OrderedMap.get_eq_some_iff.mpr (MapOrder.mem_range.mp member))
    rwa [normalize_native entry]

theorem PropsView.given (plain : NativeProps props) (ordered : ∀ d, Dictionary s d)
    (ran : (internProps o props.val).Exec rule s (.ok p) s')
    : PropsView s' p (Graph.given props) := by
  have view := PropsView.interned ordered ran
  convert view using 1
  funext key
  rw [Graph.given]
  cases held : props.val.get key with
  | none => rfl
  | some v => simp [present, normalize_native (plain key v held)]

/-- The graph has the node as an end of an edge exactly where the records have. -/
theorem Simulates.incident_iff (simulates : Simulates s g)
    : (∃ a, g.edges e = some a ∧ a.Joins n)
      ↔ ∃ r, edgeAt s e = some r ∧ (r.src = n ∨ r.dst = n) := by
  have related := simulates.edges e
  generalize edgeAt s e = r at related ⊢
  generalize g.edges e = a at related ⊢
  cases related with
  | none => simp
  | some view => simp [Arc.Joins, view.src, view.dst]

section

variable {u : Unit} (laws : NodeLaws .present s) (ordered : ∀ d, Dictionary s d) (simulates : Simulates s g)

include laws ordered simulates

theorem simulates_createNode (plain : NativeProps props) (free : cell s (.node n) = none)
    (ran : (createNode o labels props.val).Exec rule s (.ok n) s')
    : ∃ g', g.apply (.createNode labels props) (.node n) = some g' ∧ Simulates s' g' := by
  have larger := (advance_createNode ran).extends ordered
  obtain ⟨_, framed, labelIDs, p, s₁, s₂, o₁, interned, properties, kept, stored⟩ :=
    nodeLaws_createNode laws props.property free ran
  have named := (interned_internLabels interned).1
  have keyed := (interned_internEntries properties).1
  have after : Extends s₂ s' := .ofFramed kept (by simp [NodeKey]) larger.ordered
  have labelled : LabelsView s₁ labelIDs {l | l ∈ labels} := by
    have start : LabelsView s [] ∅ := ⟨by simp, by simp⟩
    simpa using start.intern ordered interned
  have propertied := PropsView.given plain (named.ordered ordered) properties
  have view : NodeView s' (recorded ⟨labelIDs, p⟩) ⟨{l | l ∈ labels}, given props⟩ :=
    .recorded ((labelled.extend (keyed.extends (named.ordered ordered))).extend after)
      (propertied.extend after)
      (fun k x held => recForm_native x (native_internEntries plain properties held))
  have unused : (g.nodes n).isNone := by
    rw [← Option.not_isSome, simulates.node_isSome, nodeAt, free]
    rfl
  refine ⟨g.setNode n (some ⟨{l | l ∈ labels}, given props⟩), if_pos unused, ?_⟩
  apply simulates.setNode larger framed
  rw [stored]
  exact .some view

omit laws in
theorem simulates_createEdge {typ : Str} {src dst e : UInt64} (plain : NativeProps props)
    (free : cell s (.edge e) = none)
    (ran : (createEdge o typ src dst props.val).Exec rule s (.ok e) s')
    : ∃ g', g.apply (.createEdge typ src dst props) (.edge e) = some g' ∧ Simulates s' g' := by
  have larger := (advance_createEdge ran).extends ordered
  have framed := framed_createEdge ran
  obtain ⟨source, target, typeID, p, s₁, s₂, s₃, b, o₁, o₂, interned, properties, counted, encoded,
    entered⟩ := exec_createEdge ran
  obtain ⟨named, known⟩ := interned_internDict (d := .type) interned
  have keyed := (interned_internEntries properties).1
  obtain ⟨written, decoded, _⟩ :=
    cell_createEdge entered (props_internProps props.property properties).1 encoded
  have kept : Framed (fun κ => OfEdge e κ ∨ κ = .counter .edge) s₂ s' :=
    (((within_nextCounter .edge).framed counted).mono (fun _ => .inr)).trans
      ((framed_writeEdge entered).mono (fun _ => .inl))
  have after : Extends s₂ s' := .ofFramed kept (by simp [OfEdge]) larger.ordered
  have native (k : UInt32) (x : Val) (held : p.get k = some x) : recForm x = x :=
    recForm_native x (native_internEntries plain properties held)
  have stored : edgeAt s' e = some ⟨typeID, src, dst, p⟩ := by
    rw [edgeAt, written, Option.bind_some, decoded, recProps_settled native]
    rfl
  have view : EdgeView s' ⟨typeID, src, dst, p⟩ ⟨typ, src, dst, given props⟩ :=
    ⟨after.keeps _ _ _ (keyed.keeps _ _ _ known), rfl, rfl,
      (PropsView.given plain (named.ordered ordered) properties).extend after⟩
  have enabled : (g.edges e).isNone ∧ (g.nodes src).isSome ∧ (g.nodes dst).isSome := by
    rw [← Option.not_isSome, simulates.edge_isSome, simulates.node_isSome, simulates.node_isSome,
      edgeAt, free]
    exact ⟨rfl, Option.isSome_iff_ne_none.mpr source, Option.isSome_iff_ne_none.mpr target⟩
  refine ⟨g.setEdge e (some ⟨typ, src, dst, given props⟩), if_pos enabled, ?_⟩
  apply simulates.setEdge larger framed
  rw [stored]
  exact .some view

theorem simulates_setProperty {value : GoValue} (plain : native value.val = true)
    (ran : (setProperty n key value.val).Exec rule s (.ok u) s')
    : ∃ g', g.apply (.setProperty n key value) .done = some g' ∧ Simulates s' g' := by
  have larger := (advance_setProperty ran).extends ordered
  have framed := ((within_setProperty n key value.val).framed ran).mono NodeOrDict.orCatalog
  obtain ⟨_, r, keyID, base, found, interned, kept, stored⟩ :=
    nodeLaws_setProperty laws value.property (.inr rfl) ran
  have known : idOf s' .key key = some keyID := by
    rw [kept.idOf (fun _ _ => id)]
    exact (interned_internDict (d := .key) interned).2
  rw [normalize_native plain] at stored
  have changed (k : UInt32)
      : (if isNull value.val then r.props.delete keyID else r.props.set keyID value.val).get k
        = if k = keyID then present value.val else r.props.get k := by
    unfold present
    split <;> simp [OrderedMap.get_set, OrderedMap.get_delete]
  apply simulates.editNode larger framed found stored
  intro v view
  have old := view.extend larger
  refine .recorded old.labels (old.props.update (larger.ordered .key) known changed)
    (fun k x held => ?_)
  rw [changed] at held
  split at held
  · simp only [present] at held
    split at held
    · cases held
    · exact Option.some.inj held ▸ recForm_native _ plain
  · exact recForm_of_storable ((laws.aligned n).storable r found) held

theorem simulates_removeProperty (ran : (removeProperty n key).Exec rule s (.ok u) s')
    : ∃ g', g.apply (.removeProperty n key) .done = some g' ∧ Simulates s' g' := by
  have larger := (advance_removeProperty ran).extends ordered
  have framed := (within_removeProperty n key).framed ran
  obtain ⟨_, r, found, ⟨same, absent⟩ | ⟨keyID, known, stored⟩⟩ := nodeLaws_removeProperty laws ran
  · apply simulates.editNode larger framed.ofNode found (same ▸ found)
    intro v view
    subst same
    exact ⟨view.labels, view.props.forget absent⟩
  · apply simulates.editNode larger framed.ofNode found stored
    intro v view
    have old := view.extend larger
    refine .recorded old.labels (old.props.update (larger.ordered .key)
      (larger.keeps _ _ _ known) (r.props.get_delete keyID)) (fun k x held => ?_)
    rw [OrderedMap.get_delete] at held
    split at held
    · cases held
    · exact recForm_of_storable ((laws.aligned n).storable r found) held

theorem simulates_setNodeProperties {replace : Bool} (plain : NativeProps props)
    (ran : (setNodeProperties o n props.val replace).Exec rule s (.ok u) s')
    : ∃ g', g.apply (.setNodeProperties n props replace) .done = some g' ∧ Simulates s' g' := by
  have larger := (advance_setNodeProperties ran).extends ordered
  have framed := ((within_setNodeProperties o n props.val replace).framed ran).mono
    NodeOrDict.orCatalog
  obtain ⟨_, r, desired, updated, base, o₁, found, interned, kept, result, stored⟩ :=
    nodeLaws_setNodeProperties laws props.property ran
  have wanted : PropsView s' desired (fun key => (props.val.get key).map normalize) := by
    have view := (PropsView.interned ordered interned).extend
      (.ofFramed kept (fun _ _ => id) larger.ordered)
    convert view using 2
    cases props.val.get _ <;> rfl
  apply simulates.editNode larger framed found stored
  intro v view
  have old := view.extend larger
  refine .recorded old.labels ⟨fun key => ?_, fun k held => ?_⟩ (fun k x held => ?_)
  · -- The key's ID finds the given entry, or else the old one.
    have new := wanted.named key
    have before := old.props.named key
    cases known : idOf s' .key key with
    | none =>
      rw [known] at new before
      have missing : props.val.get key = none := by simpa using new
      simp [overlaid, missing, before]
    | some k =>
      rw [known, Option.bind_some] at new before
      rw [Option.bind_some, result, overlay, ← new, ← before]
      simp only [overlaid]
      cases held : props.val.get key with
      | none => rfl
      | some x => simp [present, normalize_native (plain key x held)]
  · rw [result, overlay] at held
    cases new : desired.get k with
    | some x => exact wanted.known k (by simp [new])
    | none =>
      rw [new] at held
      apply old.props.known k
      intro nothing
      simp [nothing] at held
  · rw [result, overlay] at held
    cases new : desired.get k with
    | some y =>
      have same : recForm y = y := recForm_native y (native_internEntries plain interned new)
      rw [new] at held
      simp only at held
      split at held
      · cases held
      · exact Option.some.inj held ▸ same
    | none =>
      rw [new] at held
      simp only at held
      split at held
      · cases held
      · exact recForm_of_storable ((laws.aligned n).storable r found) held

theorem simulates_addLabels (ran : (addLabels o n labels).Exec rule s (.ok u) s')
    : ∃ g', g.apply (.addLabels n labels) .done = some g' ∧ Simulates s' g' := by
  have larger := (advance_addLabels ran).extends ordered
  have framed := ((within_addLabels o n labels).framed ran).mono NodeOrDict.orCatalog
  obtain ⟨_, ⟨empty, same⟩ | ⟨r, r', added, base, named, found, interned, kept, stored, perm, same⟩⟩ :=
    nodeLaws_addLabels laws ran
  · exact ⟨g, if_pos empty, same ▸ simulates⟩
  rw [PropertyGraph.apply, if_neg named]
  apply simulates.editNode larger framed found stored
  intro v view
  have after : Extends base s' := .ofFramed kept (fun _ _ => id) larger.ordered
  exact ⟨((view.labels.intern ordered interned).extend after).perm perm,
    same ▸ view.props.extend larger⟩

theorem simulates_removeLabels (ran : (removeLabels o n labels).Exec rule s (.ok u) s')
    : ∃ g', g.apply (.removeLabels n labels) .done = some g' ∧ Simulates s' g' := by
  have larger := (advance_removeLabels ran).extends ordered
  have framed := (within_removeLabels o n labels).framed ran
  obtain ⟨_, ⟨empty, same⟩ | ⟨r, r', toRemove, named, found, members, stored, perm, same⟩⟩ :=
    nodeLaws_removeLabels laws ran
  · exact ⟨g, if_pos empty, same ▸ simulates⟩
  rw [PropertyGraph.apply, if_neg named]
  apply simulates.editNode larger framed.ofNode found stored
  intro v view
  exact ⟨((view.labels.remove (ordered .label) members).extend larger).perm perm,
    same ▸ view.props.extend larger⟩

omit laws

theorem simulates_deleteEdge (ran : (deleteEdge o e).Exec rule s (.ok u) s')
    : g.apply (.deleteEdge e) .done = some (g.setEdge e none)
      ∧ Simulates s' (g.setEdge e none) := by
  have larger := (advance_deleteEdge ran).extends ordered
  have framed := (within_deleteEdge o e).framed ran
  obtain ⟨r, mid, found, _, rfl⟩ := exec_deleteEdge ran
  have there : (g.edges e).isSome := by simp [simulates.edge_isSome, found]
  refine ⟨if_pos there, simulates.setEdge larger framed.ofEdge ?_⟩
  simp [edgeAt]

theorem simulates_deleteNode (consistent : Consistent .present s)
    (ran : (deleteNode o n).Exec .exact s (.ok u) s')
    : g.apply (.deleteNode n) .done = some (g.setNode n none)
      ∧ Simulates s' (g.setNode n none) := by
  have larger := (advance_deleteNode ran).extends ordered
  have framed := (within_deleteNode o n).framed ran
  obtain ⟨r, mid, found, asked, _, rfl⟩ := exec_deleteNode ran
  have alone := exec_hasIncidentEdges_false consistent.edges asked
  have enabled : (g.nodes n).isSome ∧ ¬ g.Incident n := by
    refine ⟨by simp [simulates.node_isSome, found], fun incident => ?_⟩
    obtain ⟨e, a, there, joins⟩ := incident
    obtain ⟨r', recorded, ends⟩ := simulates.incident_iff.mp ⟨a, there, joins⟩
    obtain ⟨source, target⟩ := alone e r' recorded
    exact ends.elim source target
  refine ⟨if_pos enabled, simulates.setNode larger framed.ofNode ?_⟩
  simp [nodeAt]

/-- The loop of `DetachDeleteNode` removes the listed edges and nothing else. -/
theorem simulates_deleteEdges {edges : List (UInt64 × Nat)}
    (ran : (each edges (fun e => deleteEdge (o.sub e.2) e.1)).Exec rule s (.ok u) s')
    : (∀ d, Dictionary s' d) ∧ Simulates s' (g.dropEdges (edges.map Prod.fst)) := by
  induction edges generalizing s g with
  | nil =>
    rw [exec_each_nil] at ran
    subst ran
    exact ⟨ordered, by simpa [PropertyGraph.dropEdges] using simulates⟩
  | cons entry rest ih =>
    obtain ⟨mid, first, more⟩ := exec_each_cons.mp ran
    have removed := (simulates_deleteEdge ordered simulates first).2
    obtain ⟨after, result⟩ := ih ((advance_deleteEdge first).ordered ordered) removed more
    refine ⟨after, ?_⟩
    convert result using 1
    simp only [PropertyGraph.dropEdges, PropertyGraph.setEdge, PropertyGraph.mk.injEq, true_and]
    funext e
    by_cases listed : e ∈ rest.map Prod.fst
    · simp [listed]
    · by_cases here : e = entry.1 <;> simp [listed, here]

omit ordered simulates in
/-- The edges `DetachDeleteNode` lists are those that have the node as an end. -/
theorem mem_incidentEdges (consistent : Consistent .present s) {leaving entering : List EdgeRef}
    (out : (outEdges n 0).Exec .exact s (.ok leaving) s)
    (inc : (inEdges n 0).Exec .exact s (.ok entering) s) (e : UInt64)
    : e ∈ (leaving ++ entering).map EdgeRef.id
      ↔ ∃ r, edgeAt s e = some r ∧ (r.src = n ∨ r.dst = n) := by
  obtain ⟨refs, listed, _, outs⟩ := run_outEdges consistent.nodes.keyed n 0
  obtain rfl := Except.ok.inj (Prod.mk.inj (listed.symm.trans (exec_exact_iff.mp out))).1
  obtain ⟨refs', listed', _, ins⟩ := run_inEdges consistent.nodes.keyed n 0
  obtain rfl := Except.ok.inj (Prod.mk.inj (listed'.symm.trans (exec_exact_iff.mp inc))).1
  rw [map_append, mem_append, mem_map, mem_map]
  constructor
  · intro either
    rcases either with ⟨ref, member, rfl⟩ | ⟨ref, member, rfl⟩
    · obtain ⟨_, _, present⟩ := (outs ref).mp member
      obtain ⟨r, found, source, _⟩ := ((consistent.edges ref.id).outs _ _ _).mp present
      exact ⟨r, found, .inl source⟩
    · obtain ⟨_, _, present⟩ := (ins ref).mp member
      obtain ⟨r, found, _, _, target⟩ := ((consistent.edges ref.id).ins _ _ _).mp present
      exact ⟨r, found, .inr target⟩
  · intro joined
    obtain ⟨r, found, rfl | rfl⟩ := joined
    · refine .inl ⟨⟨e, r.type, r.src, r.dst⟩, (outs _).mpr ⟨rfl, .inl rfl, ?_⟩, rfl⟩
      exact ((consistent.edges e).outs _ _ _).mpr ⟨r, found, rfl, rfl, rfl⟩
    · refine .inr ⟨⟨e, r.type, r.src, r.dst⟩, (ins _).mpr ⟨rfl, .inl rfl, ?_⟩, rfl⟩
      exact ((consistent.edges e).ins _ _ _).mpr ⟨r, found, rfl, rfl, rfl⟩

theorem simulates_detachDeleteNode (consistent : Consistent .present s)
    (ran : (detachDeleteNode o n).Exec .exact s (.ok u) s')
    : g.apply (.detachDeleteNode n) .done = some ((g.detach n).setNode n none)
      ∧ Simulates s' ((g.detach n).setNode n none) := by
  obtain ⟨leaving, entering, mid, o₁, o₂, o₃, there, out, inc, detached, deleted⟩ :=
    exec_detachDeleteNode ran
  obtain ⟨after, cut⟩ := simulates_deleteEdges ordered simulates detached
  have graph : g.dropEdges (((o₁.range ((leaving ++ entering).map EdgeRef.id).dedup).zipIdx).map
      Prod.fst) = g.detach n := by
    rw [PropertyGraph.dropEdges, PropertyGraph.detach, zipIdx_map_fst]
    congr 1
    funext e
    simp only [MapOrder.mem_range, mem_dedup, mem_incidentEdges consistent out inc,
      ← simulates.incident_iff]
    cases g.edges e with
    | none => simp
    | some a => by_cases joins : a.Joins n <;> simp [Option.filter, joins]
  rw [graph] at cut
  have present : (g.nodes n).isSome := by
    rw [simulates.node_isSome]
    exact Option.isSome_iff_ne_none.mpr there
  exact ⟨if_pos present,
    (simulates_deleteNode after cut (consistent_deleteEdges consistent detached) deleted).2⟩

end

/-- The mutations, called with native values. -/
def Op.Plain : Op → Prop
  | createNode _ props | createEdge _ _ _ props | setNodeProperties _ props _ => NativeProps props
  | setProperty _ _ value => native value.val = true
  | removeProperty .. | addLabels .. | removeLabels .. | deleteEdge .. | deleteNode ..
  | detachDeleteNode .. => True
  | buildIndex .. | dropIndexEntries .. | buildRelIndex .. | dropRelIndexEntries ..
  | addUniqueConstraint .. | dropUniqueConstraint .. => False

section

variable {op : Op} {r : Outcome} (consistent : Consistent .present s) (ordered : ∀ d, Dictionary s d)
  (simulates : Simulates s g) (plain : op.Plain)

include consistent ordered simulates plain

/-- Where no node goes, the graph moves alike whatever the scans answer. -/
theorem simulates_mutation (keeps : op.KeepsNodes) (fresh : Fresh s r) (ran : (op.run o).Exec rule s (.ok r) s')
    : ∃ g', g.apply op r = some g' ∧ Simulates s' g' := by
  cases op with
  | createNode labels props =>
    obtain ⟨n, rfl, created⟩ := exec_made.mp ran
    exact simulates_createNode consistent.nodes ordered simulates plain (fresh.node n rfl) created
  | createEdge typ src dst props =>
    obtain ⟨e, rfl, created⟩ := exec_made.mp ran
    exact simulates_createEdge ordered simulates plain (fresh.edge e rfl) created
  | setProperty n key value =>
    obtain ⟨rfl, did⟩ := exec_done.mp ran
    exact simulates_setProperty consistent.nodes ordered simulates plain did
  | removeProperty n key =>
    obtain ⟨rfl, did⟩ := exec_done.mp ran
    exact simulates_removeProperty consistent.nodes ordered simulates did
  | setNodeProperties n props replace =>
    obtain ⟨rfl, did⟩ := exec_done.mp ran
    exact simulates_setNodeProperties consistent.nodes ordered simulates plain did
  | addLabels n labels =>
    obtain ⟨rfl, did⟩ := exec_done.mp ran
    exact simulates_addLabels consistent.nodes ordered simulates did
  | removeLabels n labels =>
    obtain ⟨rfl, did⟩ := exec_done.mp ran
    exact simulates_removeLabels consistent.nodes ordered simulates did
  | deleteEdge e =>
    obtain ⟨rfl, did⟩ := exec_done.mp ran
    exact ⟨_, simulates_deleteEdge ordered simulates did⟩
  | _ => exact False.elim keeps

/-- Each mutation moves the store and the graph alike. -/
theorem simulates_run (fresh : Fresh s r) (ran : (op.run o).Exec .exact s (.ok r) s')
    : ∃ g', g.apply op r = some g' ∧ Simulates s' g' := by
  cases op with
  | deleteNode n =>
    obtain ⟨rfl, did⟩ := exec_done.mp ran
    exact ⟨_, simulates_deleteNode ordered simulates consistent did⟩
  | detachDeleteNode n =>
    obtain ⟨rfl, did⟩ := exec_done.mp ran
    exact ⟨_, simulates_detachDeleteNode ordered simulates consistent did⟩
  | buildIndex | dropIndexEntries | buildRelIndex | dropRelIndexEntries | addUniqueConstraint
  | dropUniqueConstraint => cases plain
  | _ => exact simulates_mutation consistent ordered simulates plain (by trivial) fresh ran

end

end Intreccio.Graph
