import Intreccio.Graph.Simulation

/-! The graph layer refines the abstract property graph: along every run the reads return what
the graph replayed from the history gives, and an operation leaves the nodes and edges it is
not about as they were.
-/

namespace Intreccio.Graph

open Kv Kv.Program Words Codec Catalog

variable {s s' : Store} {g : PropertyGraph} {history : History}

theorem run_lookup_bind {β : Type} (k : Bytes) (f : Option Bytes → Txn β)
    : ((lookup k).bind f).run s = (f (s.get k)).run s := rfl

variable {n : UInt64} {e : UInt64} {op : Op} {r : Outcome}

theorem run_getNode (aligned : NodeAligned s n)
    : (getNode n).run s = ((nodeAt s n).elim (.error .nodeNotFound) (fun r => .ok ⟨r, n⟩), s) := by
  simp only [getNode, bind_eq, throw_eq, pure_eq, run_lookup_bind, Key.nodeKey_eq, nodeAt, cell]
  cases held : s.get (Key.node n).bytes with
  | none => rfl
  | some b =>
    obtain ⟨r, decoded⟩ := aligned.readable b held
    simp only [Option.bind_some, decoded]
    rfl

theorem run_getEdge (aligned : EdgeAligned s e)
    : (getEdge e).run s = ((edgeAt s e).elim (.error .edgeNotFound) (fun r => .ok ⟨r, e⟩), s) := by
  simp only [getEdge, bind_eq, throw_eq, pure_eq, run_lookup_bind, Key.edgeKey_eq, edgeAt, cell]
  cases held : s.get (Key.edge e).bytes with
  | none => rfl
  | some b =>
    obtain ⟨r, decoded⟩ := aligned.readable b held
    simp only [Option.bind_some, decoded]
    rfl

theorem run_lookupDict {d : Dict} (dict : Dictionary s d) (name : Str)
    : (lookupDict d.fwdTag name).run s = (.ok (idOf s d name), s) := by
  simp only [lookupDict, bind_eq, pure_eq, run_lookup_bind, Key.forward_eq, idOf, cell]
  cases held : s.get (Key.forward d name).bytes with
  | none => rfl
  | some b =>
    obtain ⟨id, rfl, _⟩ := dict.forward name b held
    simp only [decodeU32_uint32Bytes, Option.map_some, uint32OfBytes_uint32Bytes]
    rfl

theorem run_revName {d : Dict} (dict : Dictionary s d) {name : Str} {id : UInt32}
    (known : idOf s d name = some id)
    : (revName d.kind id).run s = (.ok name, s) := by
  have held : s.get (Key.reverse d id).bytes = some name := dict.idOf_iff.mp known
  simp only [revName, bind_eq, pure_eq, throw_eq, run_lookup_bind, Key.reverseKey_eq, held]
  rfl

/-- The reads return exactly what the graph has: records with the names of the graph behind
their IDs, each ID and each edge once.
-/
structure Exposes (s : Store) (g : PropertyGraph) : Prop where
  lookups : ∀ d name, (lookupDict d.fwdTag name).run s = (.ok (idOf s d name), s)
  names : ∀ d name id, idOf s d name = some id → (revName d.kind id).run s = (.ok name, s)
  nodeMissing : ∀ n, g.nodes n = none → (getNode n).run s = (.error .nodeNotFound, s)
  node
    : ∀ n v, g.nodes n = some v → ∃ r : NodeRecord, (getNode n).run s = (.ok ⟨r, n⟩, s)
        ∧ r.labels.Nodup ∧ NodeView s r v
  edgeMissing : ∀ e, g.edges e = none → (getEdge e).run s = (.error .edgeNotFound, s)
  edge
    : ∀ e a, g.edges e = some a → ∃ r : EdgeRecord, (getEdge e).run s = (.ok ⟨r, e⟩, s)
        ∧ EdgeView s r a
  allNodes
    : ∃ ids, allNodes.run s = (.ok ids, s) ∧ ids.Pairwise (· < ·)
        ∧ ∀ n, n ∈ ids ↔ g.nodes n ≠ none
  nodesByLabel
    : ∀ l, ∃ ids, (nodesByLabel l).run s = (.ok ids, s) ∧ ids.Pairwise (· < ·)
        ∧ ∀ n, n ∈ ids ↔ ∃ v name, g.nodes n = some v ∧ name ∈ v.labels
          ∧ idOf s .label name = some l
  outEdges
    : ∀ n t, ∃ refs, (outEdges n t).run s = (.ok refs, s) ∧ refs.Nodup
        ∧ ∀ ref : EdgeRef, ref ∈ refs ↔ ref.src = n ∧ (t = 0 ∨ ref.type = t)
          ∧ ∃ a, g.edges ref.id = some a ∧ idOf s .type a.type = some ref.type
            ∧ a.src = ref.src ∧ a.dst = ref.dst
  inEdges
    : ∀ n t, ∃ refs, (inEdges n t).run s = (.ok refs, s) ∧ refs.Nodup
        ∧ ∀ ref : EdgeRef, ref ∈ refs ↔ ref.dst = n ∧ (t = 0 ∨ ref.type = t)
          ∧ ∃ a, g.edges ref.id = some a ∧ idOf s .type a.type = some ref.type
            ∧ a.src = ref.src ∧ a.dst = ref.dst

theorem Simulates.node_eq_none (simulates : Simulates s g) : nodeAt s n = none ↔ g.nodes n = none := by
  rw [← Option.not_isSome_iff_eq_none, ← Option.not_isSome_iff_eq_none, simulates.node_isSome]

theorem Simulates.edge_eq_none (simulates : Simulates s g) : edgeAt s e = none ↔ g.edges e = none := by
  rw [← Option.not_isSome_iff_eq_none, ← Option.not_isSome_iff_eq_none, simulates.edge_isSome]

theorem Simulates.edge_iff (simulates : Simulates s g) {src dst : UInt64} {t : UInt32}
    : (∃ r, edgeAt s e = some r ∧ r.src = src ∧ r.type = t ∧ r.dst = dst)
      ↔ ∃ a, g.edges e = some a ∧ idOf s .type a.type = some t ∧ a.src = src ∧ a.dst = dst := by
  have related := simulates.edges e
  generalize edgeAt s e = r at related ⊢
  generalize g.edges e = a at related ⊢
  cases related with
  | none => simp
  | some view =>
    simp only [Option.some.injEq, exists_eq_left', view.src, view.dst, view.type]
    tauto

theorem NodeAligned.cell_iff (aligned : NodeAligned s n) : cell s (.node n) ≠ none ↔ nodeAt s n ≠ none := by
  refine ⟨fun present => ?_, cell_of_nodeAt⟩
  obtain ⟨b, held⟩ := Option.ne_none_iff_exists'.mp present
  obtain ⟨r, decoded⟩ := aligned.readable b held
  simp [nodeAt, held, decoded, Except.toOption]

/-- A store in order that simulates the graph exposes it. -/
theorem Simulates.exposes (simulates : Simulates s g) (consistent : Consistent .present s)
    (ordered : ∀ d, Dictionary s d)
    : Exposes s g where
  lookups := fun d => run_lookupDict (ordered d)
  names := fun d name id => run_revName (ordered d)
  nodeMissing := by
    intro n missing
    rw [run_getNode (consistent.nodes.aligned n), simulates.node_eq_none.mpr missing]
    rfl
  node := by
    intro n v there
    have aligned := consistent.nodes.aligned n
    obtain ⟨r, found, view⟩ := rel_right (simulates.nodes n) there
    refine ⟨r, ?_, aligned.distinct r found, view⟩
    rw [run_getNode aligned, found]
    rfl
  edgeMissing := by
    intro e missing
    rw [run_getEdge (consistent.edges e), simulates.edge_eq_none.mpr missing]
    rfl
  edge := by
    intro e a there
    obtain ⟨r, found, view⟩ := rel_right (simulates.edges e) there
    refine ⟨r, ?_, view⟩
    rw [run_getEdge (consistent.edges e), found]
    rfl
  allNodes := by
    obtain ⟨ids, ran, sorted, members⟩ := run_allNodes consistent.nodes.keyed
    refine ⟨ids, ran, sorted, fun n => ?_⟩
    rw [members, (consistent.nodes.aligned n).cell_iff, Ne, simulates.node_eq_none]
  nodesByLabel := by
    intro l
    obtain ⟨ids, ran, sorted, members⟩ := run_nodesByLabel consistent.nodes.keyed l
    refine ⟨ids, ran, sorted, fun n => ?_⟩
    rw [members, (consistent.nodes.aligned n).labels]
    constructor
    · intro found
      obtain ⟨r, found, member⟩ := found
      obtain ⟨v, there, view⟩ := simulates.node found
      obtain ⟨name, known⟩ := view.labels.known l member
      exact ⟨v, name, there, (view.labels.named name).mpr ⟨l, member, known⟩, known⟩
    · intro labelled
      obtain ⟨v, name, there, member, known⟩ := labelled
      obtain ⟨r, found, view⟩ := rel_right (simulates.nodes n) there
      obtain ⟨l', listed, known'⟩ := (view.labels.named name).mp member
      obtain rfl := Option.some.inj (known'.symm.trans known)
      exact ⟨r, found, listed⟩
  outEdges := by
    intro n t
    obtain ⟨refs, ran, distinct, members⟩ := run_outEdges consistent.nodes.keyed n t
    refine ⟨refs, ran, distinct, fun ref => ?_⟩
    rw [members, (consistent.edges ref.id).outs, simulates.edge_iff]
    exact and_congr_right (fun source => by rw [source])
  inEdges := by
    intro n t
    obtain ⟨refs, ran, distinct, members⟩ := run_inEdges consistent.nodes.keyed n t
    refine ⟨refs, ran, distinct, fun ref => ?_⟩
    rw [members, (consistent.edges ref.id).ins, simulates.edge_iff]
    exact and_congr_right (fun target => by rw [target])

def Op.OnNode (r : Outcome) (n : UInt64) : Op → Prop
  | createNode .. => r = .node n
  | setProperty m .. | removeProperty m .. | setNodeProperties m .. | addLabels m ..
  | removeLabels m .. | deleteNode m | detachDeleteNode m => n = m
  | _ => False

/-- The edges an operation is about; a detaching deletion is about those of its node. -/
def Op.OnEdge (g : PropertyGraph) (r : Outcome) (e : UInt64) : Op → Prop
  | createEdge .. => r = .edge e
  | deleteEdge e' => e = e'
  | detachDeleteNode n => ∃ a, g.edges e = some a ∧ a.Joins n
  | _ => False

/-- The nodes and edges an operation is not about read as before. -/
structure Untouched (g : PropertyGraph) (op : Op) (r : Outcome) (s s' : Store) : Prop where
  nodes : ∀ n, ¬ op.OnNode r n → ((getNode n).run s').1 = ((getNode n).run s).1
  edges : ∀ e, ¬ op.OnEdge g r e → ((getEdge e).run s').1 = ((getEdge e).run s).1

theorem getNode_congr (same : cell s' (.node n) = cell s (.node n))
    : ((getNode n).run s').1 = ((getNode n).run s).1 := by
  have equal : s'.get (Key.node n).bytes = s.get (Key.node n).bytes := same
  simp only [getNode, bind_eq, throw_eq, pure_eq, run_lookup_bind, Key.nodeKey_eq, equal]
  cases s.get (Key.node n).bytes with
  | none => rfl
  | some b =>
    dsimp only
    cases decodeNode b <;> rfl

theorem getEdge_congr (same : cell s' (.edge e) = cell s (.edge e))
    : ((getEdge e).run s').1 = ((getEdge e).run s).1 := by
  have equal : s'.get (Key.edge e).bytes = s.get (Key.edge e).bytes := same
  simp only [getEdge, bind_eq, throw_eq, pure_eq, run_lookup_bind, Key.edgeKey_eq, equal]
  cases s.get (Key.edge e).bytes with
  | none => rfl
  | some b =>
    dsimp only
    cases decodeEdge b <;> rfl

theorem Untouched.ofNode (framed : Framed (NodeOrCatalog n) s s')
    (about : op.OnNode r n)
    : Untouched g op r s s' := by
  refine ⟨fun m away => getNode_congr (framed.frame _ ?_),
    fun e _ => getEdge_congr (framed.frame _ (by simp [NodeOrCatalog, NodeKey, CatalogKey]))⟩
  have other : m ≠ n := fun same => away (same ▸ about)
  simp [NodeOrCatalog, NodeKey, CatalogKey, other]

theorem Untouched.ofEdge
    (framed : Framed (EdgeOrCatalog e) s s') (about : op.OnEdge g r e)
    : Untouched g op r s s' := by
  refine ⟨fun m _ => getNode_congr (framed.frame _ (by simp [EdgeOrCatalog, OfEdge, CatalogKey])),
    fun e' away => getEdge_congr (framed.frame _ ?_)⟩
  have other : e' ≠ e := fun same => away (same ▸ about)
  simp [EdgeOrCatalog, OfEdge, CatalogKey, other]

variable {o : MapOrder}

theorem framed_createNode {rule : ScanRule Bytes Bytes} {labels : List Str} {props : OrderedMap Str Val}
    (ran : (createNode o labels props).Exec rule s (.ok n) s')
    : Framed (NodeOrCatalog n) s s' := by
  obtain ⟨labelIDs, p, s₁, s₂, s₃, s₄, o₁, o₂, interned, properties, counted, written, indexed⟩ :=
    exec_createNode ran
  have named := (interned_internLabels interned).1.framed.ofDict
  have keyed := (interned_internEntries properties).1.framed.ofDict
  have catalogued := (named.trans keyed).trans (framed_nextCounter (c := .node) counted)
  exact catalogued.ofCatalog.trans (((within_putNodeRecord n _).framed written).trans
    ((within_editNodeIndexes true o₂ n _).framed indexed)).ofNode

theorem framed_deleteEdges {edges : List (UInt64 × Nat)} {u : Unit}
    (ran : (each edges (fun e => deleteEdge (o.sub e.2) e.1)).Exec .exact s (.ok u) s')
    : Framed (fun κ => ∃ e ∈ edges.map Prod.fst, OfEdge e κ) s s' := by
  refine Within.framed (Within.each (fun e member => ?_)) ran
  exact (within_deleteEdge _ e.1).mono (fun κ inside => ⟨e.1, List.mem_map_of_mem member, inside⟩)

theorem untouched_detachDeleteNode {u : Unit} (consistent : Consistent .present s)
    (simulates : Simulates s g) (ran : (detachDeleteNode o n).Exec .exact s (.ok u) s')
    : Untouched g (.detachDeleteNode n) .done s s' := by
  obtain ⟨leaving, entering, mid, o₁, o₂, o₃, _, out, inc, detached, deleted⟩ :=
    exec_detachDeleteNode ran
  have cut := framed_deleteEdges detached
  have gone := (within_deleteNode o₃ n).framed deleted
  refine ⟨fun m away => getNode_congr ?_, fun e away => getEdge_congr ?_⟩
  · have other : m ≠ n := away
    rw [gone.frame (.node m) other, cut.frame (.node m) (by simp [OfEdge])]
  · have kept : ¬ ∃ e' ∈ ((o₁.range ((leaving ++ entering).map EdgeRef.id).dedup).zipIdx).map
        Prod.fst, OfEdge e' (.edge e) := by
      intro listed
      obtain ⟨e', member, same⟩ := listed
      rw [List.zipIdx_map_fst, MapOrder.mem_range, List.mem_dedup,
        mem_incidentEdges consistent out inc, ← simulates.incident_iff] at member
      have equal : e = e' := same
      exact away (equal ▸ member)
    rw [gone.frame (.edge e) id, cut.frame (.edge e) kept]

/-- An operation leaves the nodes and edges it is not about as they were. -/
theorem untouched_run (consistent : Consistent .present s)
    (simulates : Simulates s g) (plain : op.Plain) (ran : (op.run o).Exec .exact s (.ok r) s')
    : Untouched g op r s s' := by
  cases op with
  | createNode labels props =>
    obtain ⟨n, rfl, created⟩ := exec_made.mp ran
    exact .ofNode (framed_createNode created) rfl
  | createEdge typ src dst props =>
    obtain ⟨e, rfl, created⟩ := exec_made.mp ran
    exact .ofEdge (framed_createEdge created) rfl
  | setProperty n key value =>
    exact .ofNode (((within_setProperty n key value.val).framed (exec_done.mp ran).2).mono
      NodeOrDict.orCatalog) rfl
  | removeProperty n key =>
    exact .ofNode ((within_removeProperty n key).framed (exec_done.mp ran).2).ofNode rfl
  | setNodeProperties n props replace =>
    exact .ofNode (((within_setNodeProperties o n props.val replace).framed
      (exec_done.mp ran).2).mono NodeOrDict.orCatalog) rfl
  | addLabels n labels =>
    exact .ofNode (((within_addLabels o n labels).framed (exec_done.mp ran).2).mono
      NodeOrDict.orCatalog) rfl
  | removeLabels n labels =>
    exact .ofNode ((within_removeLabels o n labels).framed (exec_done.mp ran).2).ofNode rfl
  | deleteEdge e => exact .ofEdge ((within_deleteEdge o e).framed (exec_done.mp ran).2).ofEdge rfl
  | deleteNode n => exact .ofNode ((within_deleteNode o n).framed (exec_done.mp ran).2).ofNode rfl
  | detachDeleteNode n =>
    obtain ⟨rfl, did⟩ := exec_done.mp ran
    exact untouched_detachDeleteNode consistent simulates did
  | buildIndex | dropIndexEntries | buildRelIndex | dropRelIndexEntries | addUniqueConstraint
  | dropUniqueConstraint => cases plain

theorem Op.Plain.respects (s : Store) (op : Op) (plain : op.Plain) : op.Respects .present s := by
  cases op <;> first | exact trivial | exact .inr rfl | cases plain

/-- The reads give the graph of the history, and the next operation touches what it is about. -/
def Refines (history : History) (s : Store) : Prop :=
  ∃ g, PropertyGraph.replay history = some g ∧ Exposes s g
    ∧ ∀ op o r s', op.Plain → (op.run o).run s = (.ok r, s') → Untouched g op r s s'

/-- The graph layer refines the property graph: in every state reached by transactions of the
mutations with native values, as long as at most `2 ^ 64` nodes and as many edges were created,
the reads return what the graph replayed from the history gives.
-/
theorem refines_of_reached (reached : Reached (fun _ => Op.Plain) history s) (few : Few history)
    : Refines history s := by
  have preserved : Preserved .present (fun _ => Op.Plain) (fun history s =>
      ∃ g, PropertyGraph.replay history = some g ∧ Simulates s g) := by
    intro history s op o r s' tallied consistent plain fresh ran found
    obtain ⟨g, replayed, simulates⟩ := found
    obtain ⟨g', applied, moved⟩ :=
      simulates_run consistent tallied.ordered simulates plain fresh ran
    refine ⟨g', ?_, moved⟩
    rw [PropertyGraph.replay_append, replayed]
    simp [applied]
  obtain ⟨tallied, consistent, g, replayed, simulates⟩ :=
    reached.rule Op.Plain.respects preserved ⟨.empty, rfl, .empty⟩ few
  exact ⟨g, replayed, simulates.exposes consistent tallied.ordered, fun op o r s' plain ran =>
    untouched_run consistent simulates plain (exec_exact_iff.mpr ran)⟩

/-- A labelled node with a property and an edge to itself. -/
def looped : Script :=
  [(.createNode [lit "A"] (oneProp (lit "k") ⟨.int 7, rfl⟩), steady),
    (.createEdge (lit "T") 1 1 noProps, steady)]

theorem guarded_looped : Guarded (fun _ => Op.Plain) .empty looped := by
  refine ⟨?_, fun _ _ _ => ⟨?_, fun _ _ _ => trivial⟩⟩
  · intro key v held
    have entry : (key, v) ∈ [(lit "k", Val.int 7)] := OrderedMap.get_eq_some_iff.mp held
    obtain ⟨_, rfl⟩ := Prod.mk.inj (List.mem_singleton.mp entry)
    rfl
  · intro key v held
    cases held

theorem reached_looped
    : Reached (fun _ => Op.Plain) (steps looped [.node 1, .edge 1])
        ((script looped).run .empty).2 := by
  have ran : (script looped).run .empty = (.ok [.node 1, .edge 1], ((script looped).run .empty).2) :=
    rfl
  exact .commit .empty guarded_looped ran

theorem consistent_looped : Consistent .present ((script looped).run .empty).2 :=
  (reached_looped.sound Op.Plain.respects ⟨by decide, by decide⟩).2

theorem refines_looped
    : Refines (steps looped [.node 1, .edge 1]) ((script looped).run .empty).2 :=
  refines_of_reached reached_looped ⟨by decide, by decide⟩

/-- Without the bound the refinement fails.
Witness: a bare node takes the ID of a labelled one, which `NodesByLabel` still lists.
-/
theorem not_refines_of_reached
    : ¬ ∀ history s, Reached (fun _ => Op.Plain) history s → Refines history s := by
  intro always
  obtain ⟨history, s, reached, record, keyed, framed⟩ :=
    reached_looped.wrapped (fun _ key v held => by cases held) (by decide +kernel)
  obtain ⟨g, _, exposes, _⟩ := always history s reached
  have before : WellKeyed ((script looped).run .empty).2 := by
    exact (reached_looped.sound Op.Plain.respects ⟨by decide, by decide⟩).2.nodes.keyed
  -- The stale label key is still listed ...
  have stale : cell s (.label 1 1) ≠ none := by
    rw [framed (.label 1 1) (by simp) (by simp)]
    decide +kernel
  obtain ⟨ids, listed, _, members⟩ := run_nodesByLabel (keyed before) 1
  obtain ⟨ids', listed', _, members'⟩ := exposes.nodesByLabel 1
  obtain rfl := Except.ok.inj (Prod.mk.inj (listed.symm.trans listed')).1
  obtain ⟨v, name, there, member, _⟩ := (members' 1).mp ((members 1).mpr stale)
  -- ... but the record that is read has no label.
  obtain ⟨r, read, _, view⟩ := exposes.node 1 v there
  obtain ⟨id, held, _⟩ := (view.labels.named name).mp member
  obtain rfl := Option.some.inj (record.symm.trans (exec_getNode (exec_exact_iff.mpr read)).1)
  cases held

end Intreccio.Graph
