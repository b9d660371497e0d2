import Intreccio.Graph.Operations
import Mathlib.Data.Set.Basic
import Mathlib.Logic.Function.Basic

/-! The abstract property graph: what the graph layer is for, without keys, records and
dictionaries. Nodes and edges are partial maps from IDs, names stand for themselves, and each
operation has one effect or is refused.
-/

namespace Intreccio.Graph

open Kv

/-- A node of the abstract graph: a set of labels and a property map. -/
structure Vertex where
  labels : Set Str
  props : Str → Option Val

structure Arc where
  type : Str
  src : UInt64
  dst : UInt64
  props : Str → Option Val

structure PropertyGraph where
  nodes : UInt64 → Option Vertex
  edges : UInt64 → Option Arc

def Arc.Joins (a : Arc) (n : UInt64) : Prop := a.src = n ∨ a.dst = n

instance Arc.decidableJoins (a : Arc) (n : UInt64) : Decidable (a.Joins n) :=
  inferInstanceAs (Decidable (_ ∨ _))

/-- Null stands for an absent property. -/
def present (v : Val) : Option Val := if isNull v then none else some v

/-- The properties a map of the caller gives to a new node or edge. -/
def given (props : GoMap) (key : Str) : Option Val := (props.val.get key).bind present

/-- The properties after `SetNodeProperties`: exactly those given, or those given over the old
ones, where a null deletes.
-/
def overlaid (replace : Bool) (old : Str → Option Val) (props : GoMap) (key : Str) : Option Val :=
  match props.val.get key with
  | some v => present v
  | none => if replace then none else old key

namespace PropertyGraph

def empty : PropertyGraph := ⟨fun _ => none, fun _ => none⟩

def setNode (g : PropertyGraph) (n : UInt64) (v : Option Vertex) : PropertyGraph :=
  { g with nodes := Function.update g.nodes n v }

def setEdge (g : PropertyGraph) (e : UInt64) (a : Option Arc) : PropertyGraph :=
  { g with edges := Function.update g.edges e a }

def dropEdges (g : PropertyGraph) (ids : List UInt64) : PropertyGraph :=
  { g with edges := fun e => if e ∈ ids then none else g.edges e }

def Incident (g : PropertyGraph) (n : UInt64) : Prop := ∃ e a, g.edges e = some a ∧ a.Joins n

/-- The graph without the edges of a node. -/
def detach (g : PropertyGraph) (n : UInt64) : PropertyGraph :=
  { g with edges := fun e => (g.edges e).filter (fun a => ¬ a.Joins n) }

def editNode (g : PropertyGraph) (n : UInt64) (f : Vertex → Vertex) : Option PropertyGraph :=
  (g.nodes n).map (fun v => g.setNode n (some (f v)))

/-- The effect of an operation that hands back the outcome; a refused operation has none. A
creation takes an ID that is not in use.
-/
noncomputable def apply (g : PropertyGraph) : Op → Outcome → Option PropertyGraph
  | .createNode labels props, .node n =>
    if (g.nodes n).isNone then some (g.setNode n (some ⟨{l | l ∈ labels}, given props⟩)) else none
  | .createEdge typ src dst props, .edge e =>
    if (g.edges e).isNone ∧ (g.nodes src).isSome ∧ (g.nodes dst).isSome then
      some (g.setEdge e (some ⟨typ, src, dst, given props⟩))
    else none
  | .setProperty n key value, .done =>
    g.editNode n (fun v => { v with props := Function.update v.props key (present value.val) })
  | .removeProperty n key, .done =>
    g.editNode n (fun v => { v with props := Function.update v.props key none })
  | .setNodeProperties n props replace, .done =>
    g.editNode n (fun v => { v with props := overlaid replace v.props props })
  -- A call without labels does nothing, not even ask for the node.
  | .addLabels n labels, .done =>
    if labels = [] then some g
    else g.editNode n (fun v => { v with labels := v.labels ∪ {l | l ∈ labels} })
  | .removeLabels n labels, .done =>
    if labels = [] then some g
    else g.editNode n (fun v => { v with labels := v.labels \ {l | l ∈ labels} })
  | .deleteEdge e, .done => if (g.edges e).isSome then some (g.setEdge e none) else none
  | .deleteNode n, .done =>
    open Classical in
    if (g.nodes n).isSome ∧ ¬ g.Incident n then some (g.setNode n none) else none
  | .detachDeleteNode n, .done =>
    if (g.nodes n).isSome then some ((g.detach n).setNode n none) else none
  | _, _ => none

/-- The graph after a history of operations and what they handed back. -/
noncomputable def replay (history : List (Op × Outcome)) : Option PropertyGraph :=
  history.foldlM (fun g step => g.apply step.1 step.2) empty

theorem replay_append (history more : List (Op × Outcome))
    : replay (history ++ more)
      = (replay history).bind (fun g => more.foldlM (fun g step => g.apply step.1 step.2) g) :=
  List.foldlM_append

end PropertyGraph

end Intreccio.Graph
