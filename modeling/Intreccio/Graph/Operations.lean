import Intreccio.Graph.IndexOperations

/-! The operations of the graph layer as one type, and the transactions made of them.
Every operation moves the counters by the IDs it hands out, adds records only under those IDs
and only extends the dictionaries.
-/

namespace Intreccio.Graph

open Kv Kv.Program Words Codec Catalog List

variable {rule : ScanRule Bytes Bytes} {cov : Coverage} {s s' : Store} {op : Op} {e : UInt64}
  {labels : List Str} {r : Outcome}

/-- A property value as Go can hold it. -/
abbrev GoValue := { v : Val // representable v = true }

abbrev GoMap := { m : OrderedMap Str Val // ValidProps m }

/-- The mutations of the graph layer and the changes of its indexes and constraints. -/
inductive Op where
  | createNode (labels : List Str) (props : GoMap)
  | createEdge (typ : Str) (src dst : UInt64) (props : GoMap)
  | setProperty (node : UInt64) (key : Str) (value : GoValue)
  | removeProperty (node : UInt64) (key : Str)
  | setNodeProperties (node : UInt64) (props : GoMap) (replace : Bool)
  | addLabels (node : UInt64) (labels : List Str)
  | removeLabels (node : UInt64) (labels : List Str)
  | deleteEdge (edge : UInt64)
  | deleteNode (node : UInt64)
  | detachDeleteNode (node : UInt64)
  | buildIndex (label propKey : UInt32) (name : Str)
  | dropIndexEntries (label propKey : UInt32)
  | buildRelIndex (type propKey : UInt32) (name : Str)
  | dropRelIndexEntries (type propKey : UInt32)
  | addUniqueConstraint (label propKey : UInt32) (name : Str)
  | dropUniqueConstraint (label propKey : UInt32)

/-- What an operation hands back: the ID of what it created, if anything. -/
inductive Outcome where
  | done
  | node (id : UInt64)
  | edge (id : UInt64)
deriving DecidableEq

namespace Outcome

def nodes : Outcome → List UInt64
  | node id => [id]
  | _ => []

def edges : Outcome → List UInt64
  | edge id => [id]
  | _ => []

end Outcome

/-- The operation as a function of the source, under one choice of map orders. -/
def Op.run (o : MapOrder) : Op → Txn Outcome
  | createNode labels props => return .node (← Graph.createNode o labels props.val)
  | createEdge typ src dst props => return .edge (← Graph.createEdge o typ src dst props.val)
  | setProperty n key value => do Graph.setProperty n key value.val; return .done
  | removeProperty n key => do Graph.removeProperty n key; return .done
  | setNodeProperties n props replace => do
      Graph.setNodeProperties o n props.val replace
      return .done
  | addLabels n labels => do Graph.addLabels o n labels; return .done
  | removeLabels n labels => do Graph.removeLabels o n labels; return .done
  | deleteEdge e => do Graph.deleteEdge o e; return .done
  | deleteNode n => do Graph.deleteNode o n; return .done
  | detachDeleteNode n => do Graph.detachDeleteNode o n; return .done
  | buildIndex l k name => do Graph.buildIndex l k name; return .done
  | dropIndexEntries l k => do Graph.dropIndexEntries l k; return .done
  | buildRelIndex t k name => do Graph.buildRelIndex t k name; return .done
  | dropRelIndexEntries t k => do Graph.dropRelIndexEntries t k; return .done
  | addUniqueConstraint l k name => do Graph.addUniqueConstraint l k name; return .done
  | dropUniqueConstraint l k => do Graph.dropUniqueConstraint l k; return .done

/-- The operations of a transaction, each with its map orders. -/
abbrev Script := List (Op × MapOrder)

/-- The body of a transaction: its operations in turn, up to the first error. -/
def script : Script → Txn (List Outcome)
  | [] => return []
  | (op, o) :: rest => do
      let outcome ← op.run o
      let more ← script rest
      return outcome :: more

variable {o : MapOrder}

theorem exec_script_cons {rest : Script} {outcomes : List Outcome}
    : (script ((op, o) :: rest)).Exec rule s (.ok outcomes) s'
      ↔ ∃ outcome more mid, outcomes = outcome :: more ∧ (op.run o).Exec rule s (.ok outcome) mid
        ∧ (script rest).Exec rule mid (.ok more) s' := by
  simp only [script, bind_eq, pure_eq, exec_bind_ok, exec_ret]
  constructor
  · rintro ⟨outcome, mid, first, more, after, looped, rfl, rfl⟩
    exact ⟨outcome, more, mid, rfl, first, looped⟩
  · rintro ⟨outcome, more, mid, rfl, first, looped⟩
    exact ⟨outcome, mid, first, more, s', looped, rfl, rfl⟩

/-- The counter hands out the IDs in turn, modulo `2 ^ 64`. -/
def Issued (before : UInt64) : List UInt64 → UInt64 → Prop
  | [], after => after = before
  | id :: rest, after => id = before + 1 ∧ Issued id rest after

theorem Issued.append {a b c : UInt64} {xs ys : List UInt64} (first : Issued a xs b)
    (second : Issued b ys c)
    : Issued a (xs ++ ys) c := by
  induction xs generalizing a with
  | nil =>
    obtain rfl : b = a := first
    exact second
  | cons x rest ih => exact ⟨first.1, ih first.2⟩

/-- The `i`-th ID lies `i + 1` above the counter. -/
theorem Issued.eq_map {before after : UInt64} {ids : List UInt64} (issued : Issued before ids after)
    : ids = (List.range ids.length).map (fun i => before + UInt64.ofNat (i + 1))
      ∧ after = before + UInt64.ofNat ids.length := by
  induction ids generalizing before with
  | nil =>
    obtain rfl : after = before := issued
    simp
  | cons id rest ih =>
    obtain ⟨rfl, tail⟩ := issued
    obtain ⟨listed, last⟩ := ih tail
    have shift (i : Nat) : before + 1 + UInt64.ofNat i = before + UInt64.ofNat (i + 1) := by
      rw [UInt64.ofNat_add, UInt64.add_assoc, UInt64.add_comm 1]
      rfl
    refine ⟨?_, by rw [last, shift, length_cons]⟩
    rw [length_cons, range_succ_eq_map, map_cons, map_map]
    refine congrArg₂ List.cons rfl ?_
    rw [listed]
    simp only [length_map, length_range]
    exact map_congr_left (fun i _ => shift (i + 1))

/-- Positions less than `2 ^ 64` apart have different IDs. -/
theorem ofNat_add_inj {c : UInt64} {i j : Nat} (close : j < i + 2 ^ 64) (below : i ≤ j)
    (same : c + UInt64.ofNat i = c + UInt64.ofNat j)
    : i = j := by
  have equal := congrArg UInt64.toNat (UInt64.add_right_inj c |>.mp same)
  simp only [UInt64.toNat_ofNat'] at equal
  omega

/-- Up to `2 ^ 64` IDs are all different. -/
theorem Issued.nodup {before after : UInt64} {ids : List UInt64} (issued : Issued before ids after)
    (few : ids.length ≤ 2 ^ 64)
    : ids.Nodup := by
  rw [issued.eq_map.1]
  refine List.Nodup.map_on (fun i left j right same => ?_) nodup_range
  rw [mem_range] at left right
  rcases Nat.le_total i j with below | above
  · have := ofNat_add_inj (by omega) (by omega) same
    omega
  · have := ofNat_add_inj (by omega) (by omega) same.symm
    omega

/-- The counters move by the IDs handed out, records appear under those IDs only, and the
dictionaries are extended.
-/
structure Advance (nodes edges : List UInt64) (s s' : Store) : Prop where
  nodeIDs : Issued (counterAt s .node) nodes (counterAt s' .node)
  edgeIDs : Issued (counterAt s .edge) edges (counterAt s' .edge)
  nodes : ∀ n, cell s' (.node n) ≠ none → cell s (.node n) ≠ none ∨ n ∈ nodes
  edges : ∀ e, cell s' (.edge e) ≠ none → cell s (.edge e) ≠ none ∨ e ∈ edges
  ordered : (∀ d, Dictionary s d) → ∀ d, Dictionary s' d
  keeps : ∀ d name id, idOf s d name = some id → idOf s' d name = some id

theorem Advance.trans {s₁ s₂ s₃ : Store} {ns ns' es es' : List UInt64}
    (first : Advance ns es s₁ s₂) (second : Advance ns' es' s₂ s₃)
    : Advance (ns ++ ns') (es ++ es') s₁ s₃ where
  nodeIDs := first.nodeIDs.append second.nodeIDs
  edgeIDs := first.edgeIDs.append second.edgeIDs
  nodes := by
    intro n present
    rcases second.nodes n present with before | made
    · exact (first.nodes n before).imp_right (mem_append_left ns')
    · exact .inr (mem_append_right ns made)
  edges := by
    intro e present
    rcases second.edges e present with before | made
    · exact (first.edges e before).imp_right (mem_append_left es')
    · exact .inr (mem_append_right es made)
  ordered := fun ordered => second.ordered (first.ordered ordered)
  keeps := fun d name id known => second.keeps d name id (first.keeps d name id known)

theorem counterAt_congr {c : Counter} (same : cell s' (.counter c) = cell s (.counter c))
    : counterAt s' c = counterAt s c := by
  rw [counterAt, counterAt, same]

theorem Advance.quiet (catalog : ∀ κ, CatalogKey κ → κ ≠ .format → cell s' κ = cell s κ)
    (nodes : ∀ n, cell s' (.node n) ≠ none → cell s (.node n) ≠ none)
    (edges : ∀ e, cell s' (.edge e) ≠ none → cell s (.edge e) ≠ none)
    : Advance [] [] s s' where
  nodeIDs := counterAt_congr (catalog _ trivial (by simp))
  edgeIDs := counterAt_congr (catalog _ trivial (by simp))
  nodes := fun n present => .inl (nodes n present)
  edges := fun e present => .inl (edges e present)
  ordered := fun ordered d => (ordered d).congr (fun κ inside =>
    catalog κ (DictKey.catalog κ inside) (by rintro rfl; cases inside))
  keeps := fun d name id known => by
    rwa [idOf, catalog (.forward d name) trivial (by simp)]

theorem Advance.refl (s : Store) : Advance [] [] s s :=
  .quiet (fun _ _ _ => rfl) (fun _ => id) (fun _ => id)

theorem Interned.advance (interned : Interned s s') : Advance [] [] s s' where
  nodeIDs := counterAt_congr (interned.framed.frame _ id)
  edgeIDs := counterAt_congr (interned.framed.frame _ id)
  nodes := fun n present => .inl (by rwa [interned.framed.frame (.node n) id] at present)
  edges := fun e present => .inl (by rwa [interned.framed.frame (.edge e) id] at present)
  ordered := interned.ordered
  keeps := interned.keeps

variable {n : UInt64}

theorem Advance.ofNode (framed : Framed (NodeKey n) s s') (there : cell s (.node n) ≠ none)
    : Advance [] [] s s' := by
  refine .quiet (fun κ inside _ => framed.frame κ ?_) (fun m present => ?_) (fun e present => ?_)
  · cases κ <;> simp_all [CatalogKey, NodeKey]
  · by_cases same : m = n
    · exact same ▸ there
    · rwa [framed.frame (.node m) same] at present
  · rwa [framed.frame (.edge e) id] at present

theorem Interned.holds {r : NodeRecord} (named : Interned s s') (found : nodeAt s n = some r)
    : cell s' (.node n) ≠ none :=
  cell_of_nodeAt (by simp [named.framed.ofDict.nodeAt, found])

theorem Advance.ofNewNode {mid : Store} (counted : nextNodeID.Exec rule s (.ok n) mid)
    (framed : Framed (NodeKey n) mid s')
    : Advance [n] [] s s' := by
  obtain ⟨next, rfl⟩ := exec_nextCounter (c := .node) counted
  have other (κ : Key) (outside : ¬ NodeKey n κ) (differs : κ ≠ .counter .node)
      : cell s' κ = cell s κ := by
    rw [framed.frame κ outside, cell_set, if_neg differs]
  have counter : counterAt s' .node = n := by
    simp [counterAt, framed.frame (.counter .node) id]
  refine ⟨⟨next, counter⟩, counterAt_congr (other _ id (by simp)), fun m present => ?_,
    fun e present => .inl ?_, fun ordered d => (ordered d).congr (fun κ inside => other κ ?_ ?_),
    fun d name id known => ?_⟩
  · by_cases same : m = n
    · exact .inr (by simp [same])
    · rw [other (.node m) same (by simp)] at present
      exact .inl present
  · rwa [other (.edge e) id (by simp)] at present
  · cases κ <;> simp_all [DictKey, NodeKey]
  · rintro rfl
    cases inside
  · rwa [idOf, other (.forward d name) (fun inside => inside) (by simp)]

theorem Advance.ofNewEdge {mid : Store}
    (counted : nextEdgeID.Exec rule s (.ok e) mid) (framed : Framed (OfEdge e) mid s')
    : Advance [] [e] s s' := by
  obtain ⟨next, rfl⟩ := exec_nextCounter (c := .edge) counted
  have other (κ : Key) (outside : ¬ OfEdge e κ) (differs : κ ≠ .counter .edge)
      : cell s' κ = cell s κ := by
    rw [framed.frame κ outside, cell_set, if_neg differs]
  have counter : counterAt s' .edge = e := by
    simp [counterAt, framed.frame (.counter .edge) id]
  refine ⟨counterAt_congr (other _ id (by simp)), ⟨next, counter⟩, fun n present => .inl ?_,
    fun m present => ?_, fun ordered d => (ordered d).congr (fun κ inside => other κ ?_ ?_),
    fun d name id known => ?_⟩
  · rwa [other (.node n) id (by simp)] at present
  · by_cases same : m = e
    · exact .inr (by simp [same])
    · rw [other (.edge m) same (by simp)] at present
      exact .inl present
  · cases κ <;> simp_all [DictKey, OfEdge]
  · rintro rfl
    cases inside
  · rwa [idOf, other (.forward d name) (fun inside => inside) (by simp)]

variable {props : OrderedMap Str Val}

theorem advance_createNode
    (ran : (createNode o labels props).Exec rule s (.ok n) s')
    : Advance [n] [] s s' := by
  obtain ⟨labelIDs, p, s₁, s₂, s₃, s₄, o₁, o₂, interned, properties, counted, written, indexed⟩ :=
    exec_createNode ran
  have named := (interned_internLabels interned).1.trans (interned_internEntries properties).1
  have framed := ((within_putNodeRecord n _).framed written).trans
    ((within_editNodeIndexes true o₂ n _).framed indexed)
  exact named.advance.trans (.ofNewNode counted framed)

theorem advance_createEdge {typ : Str} {src dst : UInt64}
    (ran : (createEdge o typ src dst props).Exec rule s (.ok e) s')
    : Advance [] [e] s s' := by
  obtain ⟨_, _, typeID, p, s₁, s₂, s₃, b, o₁, o₂, interned, properties, counted, _, entered⟩ :=
    exec_createEdge ran
  have named := (interned_internDict (d := .type) interned).1.trans
    (interned_internEntries properties).1
  exact named.advance.trans (.ofNewEdge counted (framed_writeEdge entered))

variable {u : Unit}

theorem advance_setProperty {key : Str} {value : Val}
    (ran : (setProperty n key value).Exec rule s (.ok u) s')
    : Advance [] [] s s' := by
  obtain ⟨r, keyID, base, mid, found, interned, looped, kept, written⟩ := exec_setProperty ran
  have named := (interned_internDict (d := .key) interned).1
  have there := named.holds found
  exact named.advance.trans (.ofNode ((kept.mono AnyEntry.nodeKey).trans
    ((within_putNodeRecord n _).framed written)) there)

theorem advance_removeProperty {key : Str} (ran : (removeProperty n key).Exec rule s (.ok u) s')
    : Advance [] [] s s' := by
  obtain ⟨r, found, _⟩ := exec_removeProperty ran
  exact .ofNode ((within_removeProperty n key).framed ran) (cell_of_nodeAt (by simp [found]))

theorem advance_setNodeProperties {replace : Bool}
    (ran : (setNodeProperties o n props replace).Exec rule s (.ok u) s')
    : Advance [] [] s s' := by
  obtain ⟨r, desired, base, updated, dropped, mid, o₁, found, interned, removed, entered, written⟩ :=
    exec_setNodeProperties ran
  have named := (interned_internEntries interned).1
  have there := named.holds found
  have kept : Framed (AnyEntry n) base mid := (within_dropStale.framed removed).trans
    (Within.framed (Within.each (fun e _ => Within.each
      (fun l _ => within_editAny true l e.1 e.2 n))) entered)
  exact named.advance.trans (.ofNode ((kept.mono AnyEntry.nodeKey).trans
    ((within_putNodeRecord n _).framed written)) there)

theorem advance_addLabels (ran : (addLabels o n labels).Exec rule s (.ok u) s') : Advance [] [] s s' := by
  rcases exec_addLabels ran with ⟨_, same⟩ | ⟨r, added, base, _, found, interned, outcome⟩
  · exact same ▸ .refl s
  have named := (interned_internLabels interned).1
  have there := named.holds found
  rcases outcome with ⟨_, same⟩ | ⟨mid, indexed, written⟩
  · exact same ▸ named.advance
  · exact named.advance.trans (.ofNode (((within_editNodeIndexes true o n _).framed indexed).trans
      ((within_putNodeRecord n _).framed written)) there)

theorem advance_removeLabels
    (ran : (removeLabels o n labels).Exec rule s (.ok u) s')
    : Advance [] [] s s' := by
  have framed := (within_removeLabels o n labels).framed ran
  rcases exec_removeLabels ran with ⟨_, same⟩ | ⟨r, _, _, found, _⟩
  · exact same ▸ .refl s
  · exact .ofNode framed (cell_of_nodeAt (by simp [found]))

theorem advance_deleteNode (ran : (deleteNode o n).Exec rule s (.ok u) s') : Advance [] [] s s' := by
  obtain ⟨r, _, found, _⟩ := exec_deleteNode ran
  exact .ofNode ((within_deleteNode o n).framed ran) (cell_of_nodeAt (by simp [found]))

theorem advance_deleteEdge (ran : (deleteEdge o e).Exec rule s (.ok u) s') : Advance [] [] s s' := by
  have framed := (within_deleteEdge o e).framed ran
  obtain ⟨r, _, found, _⟩ := exec_deleteEdge ran
  refine .quiet (fun κ inside _ => framed.frame κ ?_) (fun n present => ?_) (fun m present => ?_)
  · cases κ <;> simp_all [CatalogKey, OfEdge]
  · rwa [framed.frame (.node n) id] at present
  · by_cases same : m = e
    · intro missing
      simp [edgeAt, ← same, missing] at found
    · rwa [framed.frame (.edge m) same] at present

theorem advance_detachDeleteNode (ran : (detachDeleteNode o n).Exec rule s (.ok u) s')
    : Advance [] [] s s' := by
  obtain ⟨_, _, mid, _, _, _, _, _, _, detached, deleted⟩ := exec_detachDeleteNode ran
  have removed : Advance [] [] s mid := by
    refine exec_each_invariant (fun _ t => Advance [] [] s t) ?_ (.refl s) detached
    rintro ⟨e, i⟩ rest mid after _ before step
    exact before.trans (advance_deleteEdge step)
  exact removed.trans (advance_deleteNode deleted)

/-- Creating and dropping indexes and constraints adds no record and moves no counter. -/
theorem Advance.ofRegistry {K : Key → Prop} (framed : Framed K s s')
    (outside : ∀ κ, K κ → ¬ (CatalogKey κ ∧ κ ≠ .format) ∧ (∀ n, κ ≠ .node n) ∧ ∀ e, κ ≠ .edge e)
    : Advance [] [] s s' := by
  refine .quiet (fun κ inside differs => framed.frame κ (fun here => (outside κ here).1 ⟨inside, differs⟩))
    (fun n present => ?_) (fun e present => ?_)
  · rwa [framed.frame (.node n) (fun here => (outside _ here).2.1 n rfl)] at present
  · rwa [framed.frame (.edge e) (fun here => (outside _ here).2.2 e rfl)] at present

theorem advance_ofPair {l k : UInt32} (framed : Framed (PairOrFormat l k) s s') : Advance [] [] s s' := by
  refine .ofRegistry framed (fun κ inside => ?_)
  cases κ <;> simp_all [PairOrFormat, OfPair, CatalogKey]

theorem advance_ofRelPair {t k : UInt32} (framed : Framed (RelPairOrFormat t k) s s')
    : Advance [] [] s s' := by
  refine .ofRegistry framed (fun κ inside => ?_)
  cases κ <;> simp_all [RelPairOrFormat, OfRelPair, CatalogKey]

theorem exec_made {α : Type} {p : Txn α} {f : α → Outcome}
    : (p.bind (fun a => ret (f a))).Exec rule s (.ok r) s' ↔ ∃ a, r = f a ∧ p.Exec rule s (.ok a) s' := by
  simp only [exec_bind_ok, exec_ret]
  constructor
  · rintro ⟨a, _, ran, rfl, rfl⟩
    exact ⟨a, rfl, ran⟩
  · rintro ⟨a, rfl, ran⟩
    exact ⟨a, s', ran, rfl, rfl⟩

theorem exec_done {p : Txn Unit}
    : (p.bind (fun _ => ret Outcome.done)).Exec rule s (.ok r) s'
      ↔ r = .done ∧ p.Exec rule s (.ok ()) s' :=
  exec_made.trans Unique.exists_iff

/-- Every operation hands out the next IDs, whatever its scans answer. -/
theorem advance_run (ran : (op.run o).Exec rule s (.ok r) s') : Advance r.nodes r.edges s s' := by
  cases op with
  | createNode labels props =>
    obtain ⟨n, rfl, created⟩ := exec_made.mp ran
    exact advance_createNode created
  | createEdge typ src dst props =>
    obtain ⟨e, rfl, created⟩ := exec_made.mp ran
    exact advance_createEdge created
  | setProperty n key value =>
    obtain ⟨rfl, did⟩ := exec_done.mp ran
    exact advance_setProperty did
  | removeProperty n key =>
    obtain ⟨rfl, did⟩ := exec_done.mp ran
    exact advance_removeProperty did
  | setNodeProperties n props replace =>
    obtain ⟨rfl, did⟩ := exec_done.mp ran
    exact advance_setNodeProperties did
  | addLabels n labels =>
    obtain ⟨rfl, did⟩ := exec_done.mp ran
    exact advance_addLabels did
  | removeLabels n labels =>
    obtain ⟨rfl, did⟩ := exec_done.mp ran
    exact advance_removeLabels did
  | deleteEdge e =>
    obtain ⟨rfl, did⟩ := exec_done.mp ran
    exact advance_deleteEdge did
  | deleteNode n =>
    obtain ⟨rfl, did⟩ := exec_done.mp ran
    exact advance_deleteNode did
  | detachDeleteNode n =>
    obtain ⟨rfl, did⟩ := exec_done.mp ran
    exact advance_detachDeleteNode did
  | buildIndex l k name =>
    obtain ⟨rfl, did⟩ := exec_done.mp ran
    exact advance_ofPair ((within_buildIndex l k name).pair.framed did)
  | dropIndexEntries l k =>
    obtain ⟨rfl, did⟩ := exec_done.mp ran
    exact advance_ofPair ((within_dropIndexEntries l k).pair.framed did)
  | buildRelIndex t k name =>
    obtain ⟨rfl, did⟩ := exec_done.mp ran
    exact advance_ofRelPair ((within_buildRelIndex t k name).framed did)
  | dropRelIndexEntries t k =>
    obtain ⟨rfl, did⟩ := exec_done.mp ran
    exact advance_ofRelPair (((within_dropRelIndexEntries t k).framed did).mono (fun _ => .inl))
  | addUniqueConstraint l k name =>
    obtain ⟨rfl, did⟩ := exec_done.mp ran
    exact advance_ofPair ((within_addUniqueConstraint l k name).framed did)
  | dropUniqueConstraint l k =>
    obtain ⟨rfl, did⟩ := exec_done.mp ran
    exact advance_ofPair ((within_dropUniqueConstraint l k).pair.framed did)

/-- What an operation must respect: a property is not set to null unless the laws skip null,
and an index that backs a constraint is not dropped.
-/
def Op.Respects (cov : Coverage) (s : Store) : Op → Prop
  | setProperty _ _ value => isNull (normalize value.val) = false ∨ cov = .present
  | dropIndexEntries l k => ¬ Constrained s l k
  | _ => True

/-- The ID handed out is not in use. -/
structure Fresh (s : Store) (r : Outcome) : Prop where
  node : ∀ n, r = .node n → cell s (.node n) = none
  edge : ∀ e, r = .edge e → cell s (.edge e) = none

/-- The mutations that delete no node. -/
def Op.KeepsNodes : Op → Prop
  | createNode .. | createEdge .. | setProperty .. | removeProperty .. | setNodeProperties ..
  | addLabels .. | removeLabels .. | deleteEdge _ => True
  | _ => False

/-- Where no node goes, the laws do not depend on what the scans answer. -/
theorem consistent_mutation (consistent : Consistent cov s) (keeps : op.KeepsNodes)
    (respects : op.Respects cov s) (fresh : Fresh s r) (ran : (op.run o).Exec rule s (.ok r) s')
    : Consistent cov s' := by
  cases op with
  | createNode labels props =>
    obtain ⟨n, rfl, created⟩ := exec_made.mp ran
    exact consistent_createNode consistent props.property (fresh.node n rfl) created
  | createEdge typ src dst props =>
    obtain ⟨e, rfl, created⟩ := exec_made.mp ran
    exact consistent_createEdge consistent props.property (fresh.edge e rfl) created
  | setProperty n key value =>
    exact consistent_setProperty consistent value.property respects (exec_done.mp ran).2
  | removeProperty n key => exact consistent_removeProperty consistent (exec_done.mp ran).2
  | setNodeProperties n props replace =>
    exact consistent_setNodeProperties consistent props.property (exec_done.mp ran).2
  | addLabels n labels => exact consistent_addLabels consistent (exec_done.mp ran).2
  | removeLabels n labels => exact consistent_removeLabels consistent (exec_done.mp ran).2
  | deleteEdge e => exact consistent_deleteEdge consistent (exec_done.mp ran).2
  | _ => exact keeps.elim

theorem consistent_run (consistent : Consistent cov s)
    (respects : op.Respects cov s) (fresh : Fresh s r) (ran : (op.run o).Exec .exact s (.ok r) s')
    : Consistent cov s' := by
  cases op with
  | deleteNode n => exact consistent_deleteNode consistent (exec_done.mp ran).2
  | detachDeleteNode n => exact consistent_detachDeleteNode consistent (exec_done.mp ran).2
  | buildIndex l k name => exact (consistent_buildIndex consistent (exec_done.mp ran).2).1
  | dropIndexEntries l k => exact consistent_dropIndexEntries consistent respects (exec_done.mp ran).2
  | buildRelIndex t k name => exact consistent_buildRelIndex consistent (exec_done.mp ran).2
  | dropRelIndexEntries t k => exact consistent_dropRelIndexEntries consistent (exec_done.mp ran).2
  | addUniqueConstraint l k name =>
    exact consistent_addUniqueConstraint consistent (exec_done.mp ran).2
  | dropUniqueConstraint l k => exact consistent_dropUniqueConstraint consistent (exec_done.mp ran).2
  | _ => exact consistent_mutation consistent (by trivial) respects fresh ran

end Intreccio.Graph
