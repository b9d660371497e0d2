import Intreccio.Graph.Reads

/-! Shortest paths by a bidirectional breadth-first search (`internal/graph/shortest.go`). -/

namespace Intreccio.Graph

open Kv

/-- How a search follows edges. No type list stands for every type; a negative bound on the
hops for none.
-/
structure PathSpec where
  out : Bool
  inc : Bool
  types : Option (List UInt32)
  minHops : Int
  maxHops : Int
  all : Bool

/-- A walk by IDs: `rels[i]` joins `nodes[i]` and `nodes[i+1]`. -/
structure Path where
  nodes : List UInt64
  rels : List EdgeRef

/-- How a search reached a node. -/
structure Pred where
  prev : UInt64
  edge : EdgeRef

/-- One direction of the search: the depth and the predecessors of the nodes it reached. -/
structure BfsSide where
  depth : OrderedMap UInt64 Nat
  preds : OrderedMap UInt64 (List Pred)
  frontier : List UInt64
  level : Nat
  out : Bool
  inc : Bool

def newSide (start : UInt64) (out inc : Bool) : BfsSide :=
  ⟨OrderedMap.empty.set start 0, .empty, [start], 0, out, inc⟩

def scanTypes (edges : UInt32 → Txn (List EdgeRef)) : List UInt32 → Txn (List EdgeRef)
  | [] => return []
  | t :: rest => do
      let es ← edges t
      let more ← scanTypes edges rest
      return es ++ more

/-- The edges of a node to follow, outgoing first. -/
def neighbors (n : UInt64) (out inc : Bool) (types : Option (List UInt32)) : Txn (List EdgeRef) := do
  let types := types.getD [0]
  let outgoing ← (if out then scanTypes (outEdges n) types else pure [])
  let incoming ← (if inc then scanTypes (inEdges n) types else pure [])
  return outgoing ++ incoming

/-- One edge of a layer: a node seen in an earlier layer is left alone. -/
def BfsSide.visit (s : BfsSide) (n : UInt64) (next : List UInt64) (e : EdgeRef)
    : BfsSide × List UInt64 :=
  let m := if e.src = n then e.dst else e.src
  let reach : BfsSide :=
    { s with preds := s.preds.set m (((s.preds.get m).getD []) ++ [⟨n, e⟩]) }
  if m = n then (s, next)
  else
    match s.depth.get m with
    | none => ({ reach with depth := s.depth.set m s.level }, next ++ [m])
    | some d => if d = s.level then (reach, next) else (s, next)

def BfsSide.layer (spec : PathSpec) : List UInt64 → BfsSide → List UInt64 → Txn (BfsSide × List UInt64)
  | [], s, next => return (s, next)
  | n :: rest, s, next => do
      let edges ← neighbors n s.out s.inc spec.types
      let (s, next) := edges.foldl (fun (s, next) e => s.visit n next e) (s, next)
      layer spec rest s next

/-- The new nodes that the other side reached at the smallest depth. -/
def meeting (other : BfsSide) (next : List UInt64) : List UInt64 :=
  let reached := next.filterMap (fun m => (other.depth.get m).map (m, ·))
  match (reached.map Prod.snd).min? with
  | none => []
  | some best => (reached.filter (fun e => e.2 = best)).map Prod.fst

/-- Advance by one layer; the meeting nodes are those the other side has reached. -/
def BfsSide.expand (s other : BfsSide) (spec : PathSpec) : Txn (BfsSide × List UInt64) := do
  let (s, next) ← BfsSide.layer spec s.frontier { s with level := s.level + 1 } []
  return ({ s with frontier := next }, meeting other next)

/-- The walks from the start of a side to `m`, at most `depth` steps long. -/
def walks (s : BfsSide) (one : Bool) : Nat → UInt64 → List Path
  | 0, m => [⟨[m], []⟩]
  | depth + 1, m =>
    match (s.preds.get m).getD [] with
    | [] => [⟨[m], []⟩]
    | ps =>
      (if one then ps.take 1 else ps).flatMap (fun p =>
        (walks s one depth p.prev).map (fun w => ⟨w.nodes ++ [m], w.rels ++ [p.edge]⟩))

/-- A walk to `m` and the reverse of another walk to `m`. -/
def concat (head tail : Path) : Path :=
  ⟨head.nodes ++ tail.nodes.dropLast.reverse, head.rels ++ tail.rels.reverse⟩

/-- The paths through the meeting nodes; without `all` the first one. -/
def joinPaths (fwd bwd : BfsSide) (meet : List UInt64) (all : Bool) : List Path :=
  let paths := meet.flatMap (fun m =>
    (walks fwd (!all) fwd.level m).flatMap (fun h =>
      (walks bwd (!all) bwd.level m).map (concat h)))
  if all then paths else paths.take 1

/-- The search loop, one full layer at a time from the smaller frontier. `fuel` bounds the
number of layers; a search that needs more does not end.
-/
def search (spec : PathSpec) : Nat → BfsSide → BfsSide → Txn (List Path)
  | 0, _, _ => throw .endless
  | fuel + 1, fwd, bwd => do
      if fwd.frontier.isEmpty || bwd.frontier.isEmpty then return []
      if 0 < spec.maxHops && spec.maxHops < fwd.level + bwd.level + 1 then return []
      if bwd.frontier.length < fwd.frontier.length then do
        let (bwd, meet) ← bwd.expand fwd spec
        if meet.isEmpty then search spec fuel fwd bwd else return joinPaths fwd bwd meet spec.all
      else do
        let (fwd, meet) ← fwd.expand bwd spec
        if meet.isEmpty then search spec fuel fwd bwd else return joinPaths fwd bwd meet spec.all

/-- Every layer of a side reaches an ID that the side has not seen, so twice the number of IDs
bounds the layers.
-/
def shortestPaths (src dst : UInt64) (spec : PathSpec) : Txn (List Path) := do
  if src = dst then return (if spec.minHops = 0 then [⟨[src], []⟩] else [])
  if spec.maxHops = 0 || spec.types = some [] then return []
  search spec (2 * 2 ^ 64 + 2) (newSide src spec.out spec.inc) (newSide dst spec.inc spec.out)

end Intreccio.Graph
