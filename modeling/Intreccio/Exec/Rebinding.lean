import Intreccio.Foundation.Collect
import Intreccio.Graph.EdgeOperations
import Intreccio.Exec.Building
import Intreccio.Exec.Run

/-! The rows of the pattern operators (`internal/exec/expand.go`, `shortest.go` and the product of
`exec.go`). A match is written over the input row. Only the far node of an expand is compared with what the row
has already; every other variable of the match is a constraint for nothing.
-/

namespace Intreccio.Exec

open Kv Words Graph Ast Plan Program Pull List

/-- The same value; a node may have been read anew. -/
def SameValue (x y : Val) : Prop := x = y ∨ ∃ n n', x = .node n ∧ y = .node n' ∧ n.id = n'.id

/-- Every variable of the first row has its value in the second. -/
def Keeps (b out : Row) : Prop := ∀ v x, b.get v = some x → ∃ y, out.get v = some y ∧ SameValue x y

/-- A match of a pattern operator: a relationship, a trail, a path, or a row of the right side of a product. -/
inductive Match where
  | hop (hit : EdgeHit)
  | trail (hit : VarHit)
  | path (found : Graph.Path)
  | row (found : Row)

/-- The input of a pattern operator: an expand, a shortest path, or a product with a scan or a relationship
seek.
-/
def patternInput : Plan.Op → Option Plan.Op
  | .expand input _ => some input
  | .shortestPath input _ => some input
  | .cartesianProduct left (.allNodesScan _) | .cartesianProduct left (.nodeByLabelScan _ _)
  | .cartesianProduct left (.nodeByProperty _ _ _ _) | .cartesianProduct left (.nodeByPropertyRange _)
  | .cartesianProduct left (.relByProperty _) => some left
  | _ => none

/-- The variables of a scan or a seek. -/
def scanned : Plan.Op → List Str
  | .allNodesScan var | .nodeByLabelScan var _ | .nodeByProperty var _ _ _ => [var]
  | .nodeByPropertyRange x => [x.var]
  | .relByProperty x => [x.relVar, x.fromVar, x.toVar]
  | _ => []

/-- The row leaves the variables of the pattern operator unbound, apart from the far node of an expand that the
plan says is bound, where the row has a node.
-/
def Fit : Plan.Op → Row → Prop
  | .expand _ x, b => b.get x.relVar = none
    ∧ (b.get x.toVar = none ∨ x.toBound = true ∧ ∃ n, b.get x.toVar = some (.node n))
  | .shortestPath _ x, b => (x.pathVar ≠ [] → b.get x.pathVar = none) ∧ (x.relVar ≠ [] → b.get x.relVar = none)
  | .cartesianProduct _ right, b => ∀ v ∈ scanned right, b.get v = none
  | _, _ => True

/-- The match ends at the node that the row has for the far end, if it has one. -/
def Match.Meets : Match → Plan.Op → Row → Prop
  | .hop hit, .expand _ x, b => ∀ n, b.get x.toVar = some (.node n) → n.id = hit.other
  | .trail hit, .expand _ x, b => ∀ n, b.get x.toVar = some (.node n) → n.id = hit.toID
  | _, _, _ => True

/-- The second row is the first one with the match written over it. -/
def Match.Makes : Match → Plan.Op → Row → Row → Prop
  | .hop hit, .expand _ x, b, out => ∃ n e, n.id = hit.other ∧ e.id = hit.ref.id
    ∧ out = (b.set x.toVar (.node n)).set x.relVar (.edge e)
  | .trail hit, .expand _ x, b, out => ∃ n es, n.id = hit.toID ∧ es.map EdgeOf.id = hit.edges
    ∧ out = (b.set x.toVar (.node n)).set x.relVar (.edges es)
  | .path found, .shortestPath _ x, b, out => ∃ ns es, ns.map NodeOf.id = found.nodes
    ∧ es.map EdgeOf.id = found.rels.map EdgeRef.id
    ∧ out = bindName (bindName b x.pathVar (.path ns es)) x.relVar (.edges es)
  | .row found, .cartesianProduct _ right, b, out => (∀ v, v ∉ scanned right → found.get v = none)
    ∧ out = overlay b found
  | _, _, _, _ => False

section

variable {b found out : Row} {p : Plan.Op} {m : Match}

/-- What the second row has goes before what the first one has. -/
theorem get_overlay (b found : Row) (v : Str) : (overlay b found).get v = (found.get v).or (b.get v) :=
  OrderedMap.get_foldl_set b found v

/-- A row that leaves everything as it is keeps it. -/
theorem keeps_of_get (same : ∀ v x, b.get v = some x → out.get v = some x) : Keeps b out :=
  fun v x bound => ⟨x, same v x bound, .inl rfl⟩

/-- Binding a name leaves the other names as they are. -/
theorem get_bindName_of_ne {v w : Str} {y : Val} (other : v ≠ [] → w ≠ v) : (bindName b v y).get w = b.get w := by
  unfold bindName
  split
  next => rfl
  next named => rw [OrderedMap.get_set, if_neg (other named)]

/-- The end of an expand and its relationship keep a row in which they are not bound, or the end is the node. -/
theorem keeps_expand {far rel : Str} {n : NodeOf Val} {w : Val} (free : b.get rel = none)
    (target : b.get far = none ∨ ∃ n', b.get far = some (.node n') ∧ n'.id = n.id)
    : Keeps b ((b.set far (.node n)).set rel w) := by
  intro v x bound
  have other : v ≠ rel := by
    rintro rfl
    cases free.symm.trans bound
  rw [OrderedMap.get_set, if_neg other, OrderedMap.get_set]
  split
  next here =>
    obtain unbound | ⟨n', held, same⟩ := target
    · cases (here ▸ unbound).symm.trans bound
    · cases (here ▸ held).symm.trans bound
      exact ⟨_, rfl, .inr ⟨n', n, rfl, rfl, same⟩⟩
  next => exact ⟨x, bound, .inl rfl⟩

/-- A match that meets a fitting row, written over it, keeps the row. -/
theorem Match.Makes.keeps (makes : m.Makes p b out) (fit : Fit p b) (meets : m.Meets p b) : Keeps b out := by
  cases m with
  | hop hit =>
    cases p with
    | expand input x =>
      obtain ⟨n, e, far, _, rfl⟩ := makes
      refine keeps_expand fit.1 (fit.2.imp_right ?_)
      rintro ⟨_, n', held⟩
      exact ⟨n', held, (meets n' held).trans far.symm⟩
    | _ => exact makes.elim
  | trail hit =>
    cases p with
    | expand input x =>
      obtain ⟨n, e, far, _, rfl⟩ := makes
      refine keeps_expand fit.1 (fit.2.imp_right ?_)
      rintro ⟨_, n', held⟩
      exact ⟨n', held, (meets n' held).trans far.symm⟩
    | _ => exact makes.elim
  | path found =>
    cases p with
    | shortestPath input x =>
      obtain ⟨ns, es, _, _, rfl⟩ := makes
      refine keeps_of_get fun v y bound => ?_
      have unlike {w : Str} (unbound : w ≠ [] → b.get w = none) (named : w ≠ []) : v ≠ w := by
        rintro rfl
        cases (unbound named).symm.trans bound
      rw [get_bindName_of_ne (unlike fit.2), get_bindName_of_ne (unlike fit.1), bound]
    | _ => exact makes.elim
  | row found =>
    cases p with
    | cartesianProduct left right =>
      obtain ⟨only, rfl⟩ := makes
      refine keeps_of_get fun v x bound => ?_
      have unfound : found.get v = none := only v fun listed => by cases (fit v listed).symm.trans bound
      rw [get_overlay, unfound, Option.none_or, bound]
    | _ => exact makes.elim

end

/-- Some turns of a machine inside a larger one, and the rows that they yield. Between two turns the rest of
the tree may change the store, and take the row of the argument.
-/
inductive Flows (ctx : Context) (m : Machine) : List Row → Machine → Prop
  | start : Flows ctx m [] m
  | turn {rows : List Row} {m' m'' : Machine} {a a' : Argument} {s s' : Store} {t : Turn Row}
      (earlier : Flows ctx m rows m') (ran : (step ctx m' a).run s = (.ok (t, m'', a'), s'))
      : Flows ctx m (rows ++ t.rows) m''

/-- A run of its own is one inside a larger machine. -/
theorem flows_of_runs {ctx : Context} {x y : Machine × Argument} {s s' : Store} {rows : List (Row × Store)}
    (runs : Runs (turn ctx) x s rows y s')
    : Flows ctx x.1 (rows.map Prod.fst) y.1 := by
  induction runs with
  | start => exact .start
  | @turn rows y z t mid after _ ran _ ih =>
    have same : (yielded t after).map Prod.fst = t.rows := by cases t <;> rfl
    rw [map_append, same]
    exact .turn ih ran

/-- All rows of a machine, up to its end. -/
def Drains (ctx : Context) (m : Machine) (rows : List Row) : Prop :=
  ∃ m' m'' a a' s s', Flows ctx m rows m' ∧ (step ctx m' a).run s = (.ok (.done, m'', a'), s')

/-- All matches of a pattern operator for a row, at the moment it is read; a product has those that its right
side yields.
-/
def Matches (ctx : Context) : Plan.Op → Row → List Match → Prop
  | .expand _ x, b, found => ∃ typeIDs n s s', (lookupTypes x.types).read s = .ok typeIDs
    ∧ nodeAt b x.fromVar = some n
    ∧ if x.varLength then ∃ hits, ((ExpandOp.mk x typeIDs).bfs n.id).read s' = .ok hits ∧ found = hits.map .trail
      else ∃ hits, ((ExpandOp.mk x typeIDs).gather n.id).read s' = .ok hits ∧ found = hits.map .hop
  | .shortestPath _ x, b, found =>
    ((isNull (cell b x.fromVar) || isNull (cell b x.toVar)) = true ∧ found = [])
    ∨ ∃ spec start finish s s' paths, (pathSpec x).read s = .ok spec
      ∧ nodeAt b x.fromVar = some start ∧ nodeAt b x.toVar = some finish
      ∧ (shortestPaths start.id finish.id spec).read s' = .ok paths ∧ found = paths.map .path
  | .cartesianProduct _ right, _, found =>
    ∃ arg c s m rows, (buildWith ctx right arg c).read s = .ok m ∧ Drains ctx m rows ∧ found = rows.map .row
  | _, _, _ => False

/-- What is put out for a match. If the row fits, a match that meets it is written over the row, which is kept;
for any other match nothing is put out.
-/
def Answers (p : Plan.Op) (b : Row) (m : Match) (o : Option Row) : Prop :=
  Fit p b → (m.Meets p b ∧ ∃ out, o = some out ∧ m.Makes p b out ∧ Keeps b out) ∨ (¬ m.Meets p b ∧ o = none)

section

variable {ctx : Context} {b : Row} {s : Store} {input : Plan.Op} {o : Option Row}

/-- A node that is read has the ID it is read for. -/
theorem id_of_getNode {id : UInt64} {n : Node} (ran : (getNode id).read s = .ok n) : n.id = id := by
  have done : (getNode id).run s = (.ok n, s) := by rw [(reads_getNode id).run_eq, ran]
  have exact' : (getNode id).Exec .exact s (.ok n) s := exec_exact_iff.mpr done
  exact (exec_getNode_iff.mp exact').2.1

/-- A relationship that is read has the ID it is read for. -/
theorem id_of_getEdge {id : UInt64} {e : Edge} (ran : (getEdge id).read s = .ok e) : e.id = id := by
  have done : (getEdge id).run s = (.ok e, s) := by rw [(reads_getEdge id).run_eq, ran]
  have exact' : (getEdge id).Exec .exact s (.ok e) s := exec_exact_iff.mpr done
  exact (exec_getEdge_iff.mp exact').2.1

/-- The relationships are read one by one. -/
theorem ids_of_fetchEdges {ids : List UInt64} {es : List (EdgeOf Val)} (ran : (fetchEdges ids).read s = .ok es)
    : es.map EdgeOf.id = ids := by
  induction ids generalizing es with
  | nil =>
    cases ran
    rfl
  | cons id rest ih =>
    obtain ⟨e, here, ran⟩ := (read_bind_ok (reads_getEdge _)).mp ran
    obtain ⟨more, later, same⟩ := (read_bind_ok (reads_fetchEdges _)).mp ran
    cases same
    exact congrArg₂ List.cons (id_of_getEdge here) (ih later)

/-- The nodes are read one by one. -/
theorem ids_of_loadNodes {ids : List UInt64} {ns : List (NodeOf Val)} (ran : (loadNodes ids).read s = .ok ns)
    : ns.map NodeOf.id = ids := by
  induction ids generalizing ns with
  | nil =>
    cases ran
    rfl
  | cons id rest ih =>
    obtain ⟨n, here, ran⟩ := (read_bind_ok (reads_getNode _)).mp ran
    obtain ⟨more, later, same⟩ := (read_bind_ok (reads_loadNodes _)).mp ran
    cases same
    exact congrArg₂ List.cons (id_of_getNode here) (ih later)

/-- A row that is made for a match that meets the row is an answer. -/
theorem answers_some {p : Plan.Op} {m : Match} {out : Row} (meets : Fit p b → m.Meets p b) (makes : m.Makes p b out)
    : Answers p b m (some out) :=
  fun fit => .inl ⟨meets fit, out, rfl, makes, makes.keeps fit (meets fit)⟩

/-- In a row that fits, the node that an expand relies on is the one at its far end. -/
theorem existing_eq {e : ExpandOp} (fit : Fit (.expand input e.x) b)
    : e.existing b = (b.get e.x.toVar).bind asNode := by
  obtain ⟨_, unbound | ⟨bound, n, held⟩⟩ := fit
  · have missing : nodeAt b e.x.toVar = none := by simp [nodeAt, cell, unbound, asNode]
    simp [ExpandOp.existing, missing, unbound]
  · simp [ExpandOp.existing, bound, nodeAt, cell, held]

/-- An expand puts nothing out exactly for a match that ends elsewhere than at the node of the row. -/
theorem unmet_iff {e : ExpandOp} (fit : Fit (.expand input e.x) b) (id : UInt64)
    : (e.existing b).any (fun n => n.id ≠ id) = true ↔ ¬ ∀ n, b.get e.x.toVar = some (.node n) → n.id = id := by
  rw [existing_eq fit]
  obtain ⟨_, unbound | ⟨bound, n, held⟩⟩ := fit
  · simp [unbound]
  · simp [held, asNode]

/-- An expand answers each hop. -/
theorem answers_emit {e : ExpandOp} {hit : EdgeHit} (ran : (e.emit b hit).read s = .ok o)
    : Answers (.expand input e.x) b (.hop hit) o := by
  intro fit
  unfold ExpandOp.emit at ran
  split at ran
  next unmet =>
    cases ran
    exact .inr ⟨(unmet_iff fit hit.other).mp unmet, rfl⟩
  next met =>
    have meets := not_not.mp fun unmet => met ((unmet_iff fit hit.other).mpr unmet)
    obtain ⟨node, far, ran⟩ := (read_bind_ok (reads_toNode _ _ _)).mp ran
    obtain ⟨edge, along, same⟩ := (read_bind_ok (reads_edge _ _)).mp ran
    cases same
    have nodes : ∃ n : NodeOf Val, n.id = hit.other ∧ node = .node n := by
      unfold ExpandOp.toNode at far
      split at far
      next n held =>
        cases far
        refine ⟨n, ?_, rfl⟩
        simpa [held] using met
      next =>
        split at far
        · cases far
          exact ⟨_, rfl, rfl⟩
        · obtain ⟨n, read, same⟩ := (read_bind_ok (reads_getNode _)).mp far
          cases same
          exact ⟨nodeOf n, id_of_getNode read, rfl⟩
    have edges : ∃ e : EdgeOf Val, e.id = hit.ref.id ∧ edge = .edge e := by
      unfold ExpandOp.edge at along
      split at along
      · cases along
        exact ⟨_, rfl, rfl⟩
      · obtain ⟨r, read, same⟩ := (read_bind_ok (reads_getEdge _)).mp along
        cases same
        exact ⟨edgeOf r, id_of_getEdge read, rfl⟩
    obtain ⟨n, ended, rfl⟩ := nodes
    obtain ⟨r, passed, rfl⟩ := edges
    exact answers_some (fun _ => meets) ⟨n, r, ended, passed, rfl⟩ fit

/-- A variable-length expand answers each trail. -/
theorem answers_emitTrail {e : ExpandOp} {hit : VarHit} (ran : (e.emitTrail b hit).read s = .ok o)
    : Answers (.expand input e.x) b (.trail hit) o := by
  intro fit
  unfold ExpandOp.emitTrail at ran
  split at ran
  next unmet =>
    cases ran
    exact .inr ⟨(unmet_iff fit hit.toID).mp unmet, rfl⟩
  next met =>
    have meets := not_not.mp fun unmet => met ((unmet_iff fit hit.toID).mpr unmet)
    obtain ⟨n, far, ran⟩ := (read_bind_ok (reads_getNode _)).mp ran
    obtain ⟨es, along, same⟩ := (read_bind_ok (reads_fetchEdges _)).mp ran
    cases same
    exact answers_some (fun _ => meets) ⟨nodeOf n, es, id_of_getNode far, ids_of_fetchEdges along, rfl⟩ fit

/-- The search of shortest paths answers each path. -/
theorem answers_emitPath {x : ShortestPath} {found : Graph.Path} (ran : (emitPath x b found).read s = .ok o)
    : Answers (.shortestPath input x) b (.path found) o := by
  obtain ⟨ns, nodes, ran⟩ := (read_bind_ok (reads_loadNodes _)).mp ran
  obtain ⟨es, rels, same⟩ := (read_bind_ok (reads_fetchEdges _)).mp ran
  cases same
  exact answers_some (fun _ => trivial) ⟨ns, es, ids_of_loadNodes nodes, ids_of_fetchEdges rels, rfl⟩

end

/-- The programs that an operator has left to run are those of its matches. -/
def Prepares (ctx : Context) (p : Plan.Op) (b : Row) (pending : List Delayed) : Prop :=
  ∃ (found : List Match) (delay : Match → Delayed), Matches ctx p b found ∧ pending = found.map delay
    ∧ ∀ m ∈ found, ∀ s o, (delay m).read s = .ok o → Answers p b m o

section

variable {ctx : Context} {rows : List Row} {m' : Machine} {p : Plan.Op}

/-- An operator with one input answers the matches of each row that it reads, before it reads the next; by
induction on the turns.
-/
theorem flows_fan {kind : FanOut} {input : Machine} {ch : Choices}
    (spreads : ∀ b c s pending, (kind.spread ctx b c).read s = .ok pending → Prepares ctx p b pending)
    (flows : Flows ctx (.unary input (.fan kind [] ch)) rows m')
    : ∃ ins input' left, Flows ctx input ins input' ∧ Serves (Matches ctx p) (Answers p) ins rows left := by
  suffices state : ∃ ins input' left delay ch', m' = .unary input' (.fan kind (left.map delay) ch')
      ∧ Flows ctx input ins input' ∧ Serves (Matches ctx p) (Answers p) ins rows left
      ∧ ∀ b, ins.getLast? = some b → ∀ m ∈ left, ∀ s o, (delay m).read s = .ok o → Answers p b m o by
    obtain ⟨ins, input', left, _, _, _, below, serves, _⟩ := state
    exact ⟨ins, input', left, below, serves⟩
  induction flows with
  | start => exact ⟨[], input, [], fun _ => .ret none, ch, rfl, .start, .start, nofun⟩
  | turn _ ran ih =>
    obtain ⟨ins, input', left, delay, ch', rfl, below, serves, answers⟩ := ih
    rw [step] at ran
    cases left with
    | nil =>
      obtain ⟨⟨t', input'', a''⟩, mid, stepped, ran⟩ := run_bind_ok.mp ran
      have below' := below.turn stepped
      cases t' with
      | row b =>
        obtain ⟨⟨t'', u⟩, mid', fed, same⟩ := run_bind_ok.mp ran
        obtain ⟨pending, mid'', spread, fed⟩ := run_bind_ok.mp fed
        obtain ⟨found, delay', matched, rfl, answered⟩ := spreads b _ _ pending (congrArg Prod.fst spread)
        cases fed
        cases same
        refine ⟨ins ++ [b], input'', found, delay', ch'.later, rfl, below', ?_, fun b' last => ?_⟩
        · rw [Turn.rows, append_nil]
          exact serves.read matched
        · obtain rfl := Option.some.inj (getLast?_concat.symm.trans last)
          exact answered
      | again | done =>
        rw [Turn.rows, append_nil] at below'
        cases ran
        rw [Turn.rows, append_nil]
        exact ⟨ins, input'', [], delay, ch', rfl, below', serves, nofun⟩
    | cons m left =>
      obtain ⟨⟨t', u⟩, mid, acted, same⟩ := run_bind_ok.mp ran
      obtain ⟨o, mid', read, acted⟩ := run_bind_ok.mp acted
      obtain ⟨b, last⟩ := serves.last
      obtain ⟨here, later⟩ := forall_mem_cons.mp (answers b last)
      have serves' := serves.answer last (here _ _ (congrArg Prod.fst read))
      have answers' (b' : Row) (last' : ins.getLast? = some b')
          : ∀ m ∈ left, ∀ s o, (delay m).read s = .ok o → Answers p b' m o :=
        fun m member => answers b' last' m (mem_cons_of_mem _ member)
      cases o with
      | none | some out =>
        cases acted
        cases same
        exact ⟨ins, input', left, delay, ch', rfl, below, serves', answers'⟩

/-- A product meets each left row with all rows of the right side, which are read when the first left row is
there; by induction on the turns.
-/
theorem flows_product {left right : Machine}
    (matched : ∀ b rows, Drains ctx right rows → Matches ctx p b (rows.map .row))
    (answers : ∀ b rows right', Flows ctx right rows right' → ∀ r ∈ rows, Answers p b (.row r) (some (overlay b r)))
    (flows : Flows ctx (.cartesian left right [] false none) rows m')
    : ∃ ins later left' found, Flows ctx left (ins ++ later) left' ∧ later.length ≤ 1
      ∧ Serves (Matches ctx p) (Answers p) ins rows found := by
  suffices state : ∃ ins later left' right' rightRows loaded cur found,
      m' = .cartesian left' right' rightRows loaded cur
      ∧ Flows ctx left (ins ++ later) left' ∧ Flows ctx right rightRows right'
      ∧ (loaded = true → Drains ctx right rightRows) ∧ Serves (Matches ctx p) (Answers p) ins rows found
      ∧ ((cur = none ∧ later = [] ∧ found = [])
        ∨ (∃ b unread, loaded = false ∧ cur = some (b, unread) ∧ later = [b] ∧ found = [])
        ∨ ∃ b pending, loaded = true ∧ cur = some (b, pending) ∧ later = [] ∧ ins.getLast? = some b
          ∧ found = pending.map .row ∧ ∀ r ∈ pending, r ∈ rightRows) by
    obtain ⟨ins, later, left', _, _, _, _, found, _, leftFlows, _, _, serves, cases⟩ := state
    refine ⟨ins, later, left', found, leftFlows, ?_, serves⟩
    obtain ⟨_, rfl, _⟩ | ⟨_, _, _, _, rfl, _⟩ | ⟨_, _, _, _, rfl, _⟩ := cases <;> simp
  induction flows with
  | start => exact ⟨[], [], left, right, [], false, none, [], rfl, .start, .start, nofun, .start, .inl ⟨rfl, rfl, rfl⟩⟩
  | turn _ ran ih =>
    obtain ⟨ins, later, left', right', rightRows, loaded, cur, found, rfl, leftFlows, rightFlows, drained, serves,
      ⟨rfl, rfl, rfl⟩ | ⟨b, unread, rfl, rfl, rfl, rfl⟩ | ⟨b, pending, rfl, rfl, rfl, last, rfl, among⟩⟩ := ih
    · -- the next left row is read
      rw [append_nil] at leftFlows
      rw [step] at ran
      obtain ⟨⟨t', left'', a''⟩, mid, stepped, ran⟩ := run_bind_ok.mp ran
      have leftFlows' := leftFlows.turn stepped
      cases t' with
      | row b =>
        cases ran
        rw [Turn.rows, append_nil]
        cases loaded with
        | false =>
          exact ⟨ins, [b], left'', right', rightRows, false, _, [], rfl, leftFlows', rightFlows, nofun, serves,
            .inr (.inl ⟨b, _, rfl, rfl, rfl, rfl⟩)⟩
        | true =>
          refine ⟨ins ++ [b], [], left'', right', rightRows, true, _, rightRows.map .row, rfl, ?_, rightFlows,
            drained, serves.read (matched b rightRows (drained rfl)),
            .inr (.inr ⟨b, _, rfl, rfl, rfl, getLast?_concat, rfl, fun r member => member⟩)⟩
          rw [append_nil]
          exact leftFlows'
      | again | done =>
        rw [Turn.rows, append_nil] at leftFlows'
        cases ran
        rw [Turn.rows, append_nil]
        refine ⟨ins, [], left'', right', rightRows, _, none, [], rfl, ?_, rightFlows, drained, serves,
          .inl ⟨rfl, rfl, rfl⟩⟩
        rw [append_nil]
        exact leftFlows'
    · -- the right side is read
      rw [step] at ran
      obtain ⟨⟨t', right'', a''⟩, mid, stepped, ran⟩ := run_bind_ok.mp ran
      have rightFlows' := rightFlows.turn stepped
      cases t' with
      | row r =>
        cases ran
        rw [Turn.rows, append_nil]
        exact ⟨ins, [b], left', right'', _, false, _, [], rfl, leftFlows, rightFlows', nofun, serves,
          .inr (.inl ⟨b, _, rfl, rfl, rfl, rfl⟩)⟩
      | again =>
        rw [Turn.rows, append_nil] at rightFlows'
        cases ran
        rw [Turn.rows, append_nil]
        exact ⟨ins, [b], left', right'', rightRows, false, _, [], rfl, leftFlows, rightFlows', nofun, serves,
          .inr (.inl ⟨b, _, rfl, rfl, rfl, rfl⟩)⟩
      | done =>
        rw [Turn.rows, append_nil] at rightFlows'
        have drained' : Drains ctx right rightRows := ⟨right', right'', _, _, _, _, rightFlows, stepped⟩
        cases ran
        rw [Turn.rows, append_nil]
        refine ⟨ins ++ [b], [], left', right'', rightRows, true, _, rightRows.map .row, rfl, ?_, rightFlows',
          fun _ => drained', serves.read (matched b rightRows drained'),
          .inr (.inr ⟨b, _, rfl, rfl, rfl, getLast?_concat, rfl, fun r member => member⟩)⟩
        rw [append_nil]
        exact leftFlows
    · cases pending with
      | nil =>
        rw [step] at ran
        cases ran
        rw [Turn.rows, append_nil]
        exact ⟨ins, [], left', right', rightRows, true, none, [], rfl, leftFlows, rightFlows, drained, serves,
          .inl ⟨rfl, rfl, rfl⟩⟩
      | cons r pending =>
        obtain ⟨here, others⟩ := forall_mem_cons.mp among
        rw [step] at ran
        cases ran
        exact ⟨ins, [], left', right', rightRows, true, _, pending.map .row, rfl, leftFlows, rightFlows, drained,
          serves.answer last (answers b rightRows right' rightFlows r here),
          .inr (.inr ⟨b, pending, rfl, rfl, rfl, last, rfl, others⟩)⟩

/-- A scan or a seek binds no other variables than its own. -/
def OnlyBinds (vars : List Str) : Source → Prop
  | .nodeScan var _ => var ∈ vars
  | .relSeek x _ rows => (x.relVar ∈ vars ∧ x.fromVar ∈ vars ∧ x.toVar ∈ vars)
    ∧ ∀ r ∈ rows, ∀ v, v ∉ vars → r.get v = none
  | _ => False

/-- The rows of a scan or a seek have its variables only, by induction on the turns. -/
theorem flows_scan {vars : List Str} {src : Source} (only : OnlyBinds vars src)
    (flows : Flows ctx (.source src) rows m')
    : ∀ r ∈ rows, ∀ v, v ∉ vars → r.get v = none := by
  suffices state : (∃ src', m' = .source src' ∧ OnlyBinds vars src')
      ∧ ∀ r ∈ rows, ∀ v, v ∉ vars → r.get v = none from state.2
  have unset {var v : Str} (listed : var ∈ vars) (other : v ∉ vars) (b : Row) (x : Val)
      : (b.set var x).get v = b.get v := by
    rw [OrderedMap.get_set, if_neg]
    rintro rfl
    exact other listed
  induction flows with
  | start => exact ⟨⟨src, rfl, only⟩, nofun⟩
  | @turn rows _ _ _ _ _ _ t _ ran ih =>
    obtain ⟨⟨src', rfl, only'⟩, earlier⟩ := ih
    obtain ⟨⟨t', src''⟩, mid, advanced, same⟩ := run_bind_ok.mp ran
    cases same
    have appended (here : ∀ r ∈ t.rows, ∀ v, v ∉ vars → r.get v = none)
        : ∀ r ∈ rows ++ t.rows, ∀ v, v ∉ vars → r.get v = none :=
      fun r member => (mem_append.mp member).elim (earlier r) (here r)
    match src', only' with
    | .nodeScan var nodes, listed =>
      obtain ⟨⟨found, nodes'⟩, mid', read, same⟩ := run_bind_ok.mp advanced
      cases found with
      | none =>
        cases same
        exact ⟨⟨_, rfl, listed⟩, appended nofun⟩
      | some n =>
        cases same
        refine ⟨⟨_, rfl, listed⟩, appended fun r member v other => ?_⟩
        obtain rfl := mem_singleton.mp member
        rw [unset listed other, OrderedMap.get_empty]
    | .relSeek x ids (r :: left), ⟨listed, bound⟩ =>
      obtain ⟨here, others⟩ := forall_mem_cons.mp bound
      cases advanced
      refine ⟨⟨_, rfl, listed, others⟩, appended fun r' member => ?_⟩
      obtain rfl := mem_singleton.mp member
      exact here
    | .relSeek x [] [], only' =>
      cases advanced
      exact ⟨⟨_, rfl, only'⟩, appended nofun⟩
    | .relSeek x (id :: ids) [], ⟨listed, _⟩ =>
      obtain ⟨found, mid', read, same⟩ := run_bind_ok.mp advanced
      cases same
      refine ⟨⟨_, rfl, listed, fun r member v other => ?_⟩, appended nofun⟩
      obtain ⟨e, _, _, read⟩ := run_bind_ok.mp read
      obtain ⟨src, _, _, read⟩ := run_bind_ok.mp read
      obtain ⟨dst, _, _, same⟩ := run_bind_ok.mp read
      cases same
      obtain ⟨pair, _, rfl⟩ := mem_map.mp member
      rw [unset listed.2.2 other, unset listed.2.1 other, unset listed.1 other, OrderedMap.get_empty]

end

section

variable {ctx : Context} {input : Plan.Op} {b : Row} {s s₀ : Store} {pending : List Delayed}

/-- An expand prepares the hops of a row. -/
theorem prepares_expand {x : Expand} {typeIDs : List UInt32} (fixed : ¬ x.varLength = true)
    (looked : (lookupTypes x.types).read s₀ = .ok typeIDs) (ran : ((ExpandOp.mk x typeIDs).spread b).read s = .ok pending)
    : Prepares ctx (.expand input x) b pending := by
  unfold ExpandOp.spread at ran
  split at ran
  · cases ran
  next n source =>
    obtain ⟨hits, gathered, same⟩ := (read_bind_ok (reads_gather _ _)).mp ran
    cases same
    refine ⟨hits.map .hop, fun m => match m with
      | .hop hit => (ExpandOp.mk x typeIDs).emit b hit
      | _ => .ret none, ⟨typeIDs, n, s₀, s, looked, source, ?_⟩, by rw [map_map]; rfl, ?_⟩
    · rw [if_neg fixed]
      exact ⟨hits, gathered, rfl⟩
    · intro m member s' o read
      obtain ⟨hit, _, rfl⟩ := mem_map.mp member
      exact answers_emit (e := ⟨x, typeIDs⟩) read

/-- A variable-length expand prepares the trails of a row. -/
theorem prepares_varExpand {x : Expand} {typeIDs : List UInt32} (variable' : x.varLength = true)
    (looked : (lookupTypes x.types).read s₀ = .ok typeIDs)
    (ran : ((ExpandOp.mk x typeIDs).spreadTrails b).read s = .ok pending)
    : Prepares ctx (.expand input x) b pending := by
  unfold ExpandOp.spreadTrails at ran
  split at ran
  · cases ran
  next n source =>
    obtain ⟨hits, gathered, same⟩ := (read_bind_ok (reads_bfs _ _)).mp ran
    cases same
    refine ⟨hits.map .trail, fun m => match m with
      | .trail hit => (ExpandOp.mk x typeIDs).emitTrail b hit
      | _ => .ret none, ⟨typeIDs, n, s₀, s, looked, source, ?_⟩, by rw [map_map]; rfl, ?_⟩
    · rw [if_pos variable']
      exact ⟨hits, gathered, rfl⟩
    · intro m member s' o read
      obtain ⟨hit, _, rfl⟩ := mem_map.mp member
      exact answers_emitTrail (e := ⟨x, typeIDs⟩) read

/-- The search of shortest paths prepares the paths between the ends in a row. -/
theorem prepares_shortestPath {x : ShortestPath} {spec : PathSpec} (looked : (pathSpec x).read s₀ = .ok spec)
    (ran : (spreadPaths x spec b).read s = .ok pending)
    : Prepares ctx (.shortestPath input x) b pending := by
  unfold spreadPaths at ran
  dsimp only at ran
  split at ran
  next null =>
    cases ran
    exact ⟨[], fun _ => .ret none, .inl ⟨null, rfl⟩, rfl, nofun⟩
  next =>
    split at ran
    next start finish source target =>
      obtain ⟨paths, searched, same⟩ := (read_bind_ok (reads_shortestPaths _ _ _)).mp ran
      cases same
      refine ⟨paths.map .path, fun m => match m with
        | .path found => emitPath x b found
        | _ => .ret none, .inr ⟨spec, start, finish, s₀, s, paths, looked, source, target, searched, rfl⟩,
        by rw [map_map]; rfl, ?_⟩
      intro m member s' o read
      obtain ⟨found, _, rfl⟩ := mem_map.mp member
      exact answers_emitPath read
    next => cases ran

/-- The machine of a scan or a seek has its variables. -/
theorem onlyBinds_of_build {left right : Plan.Op} {arg : Option Row} {c : Choices} {m : Machine}
    (pattern : patternInput (.cartesianProduct left right) = some input)
    (built : (buildWith ctx right arg c).read s = .ok m)
    : ∃ src, m = .source src ∧ OnlyBinds (scanned right) src := by
  cases right with
  | allNodesScan var =>
    obtain ⟨cur, _, same⟩ := (read_bind_ok reads_scanAllNodes).mp built
    cases same
    exact ⟨_, rfl, mem_singleton.mpr rfl⟩
  | nodeByLabelScan var label =>
    obtain ⟨id, _, built⟩ := (read_bind_ok (Catalog.reads_lookupLabel _)).mp built
    cases id with
    | none =>
      cases built
      exact ⟨_, rfl, mem_singleton.mpr rfl⟩
    | some id =>
      obtain ⟨cur, _, same⟩ := (read_bind_ok (reads_scanLabel _)).mp built
      cases same
      exact ⟨_, rfl, mem_singleton.mpr rfl⟩
  | nodeByProperty var label key value =>
    obtain ⟨ids, _, same⟩ := (read_bind_ok (reads_propertyScanIDs _ _ _ _ _ _)).mp built
    cases same
    exact ⟨_, rfl, mem_singleton.mpr rfl⟩
  | nodeByPropertyRange x =>
    obtain ⟨source, _, same⟩ := (read_bind_ok (reads_propertyRangeScan _ _ _ _)).mp built
    cases same
    exact ⟨_, rfl, mem_singleton.mpr rfl⟩
  | relByProperty x =>
    obtain ⟨ids, _, same⟩ := (read_bind_ok (reads_relSeekIDs _ _ _ _)).mp built
    cases same
    exact ⟨_, rfl, by simp [scanned, OnlyBinds]⟩
  | _ => cases pattern

end

/-- `(a:A)-[:relType]->(:B)`, where the label is left out if it is empty. -/
def outgoing (label relType : Str) : PatternPart :=
  ⟨[], ⟨lit "a", if label = [] then [] else [label], .empty⟩,
    [⟨⟨[], [relType], .empty, .dirOut, false, -1, -1⟩, ⟨[], [lit "B"], .empty⟩⟩], .notShortest⟩

/-- The store after `CREATE (a:A)-[:T]->(:B), (a)-[:U]->(:B)`. -/
def twoOutgoing : Store :=
  (query .bare ⟨[.ofCreate [outgoing (lit "A") (lit "T"), outgoing [] (lit "U")]], []⟩ 10 .ordered .empty).2

/-- `MATCH (a)-[r]->(finish)`. -/
def matchFrom (finish : Str) : Clause :=
  .ofMatch ⟨false, [⟨[], ⟨lit "a", [], .empty⟩,
    [⟨⟨lit "r", [], .empty, .dirOut, false, -1, -1⟩, ⟨finish, [], .empty⟩⟩], .notShortest⟩], none⟩

/-- `type(r)`. -/
def typeOfR : Expr := .functionCall (lit "type") false false [.var (lit "r")]

/-- `MATCH (a)-[r]->(b) WITH a, r, type(r) AS t MATCH (a)-[r]->(c) RETURN t, type(r)`. -/
def reuseRelationship : Query :=
  ⟨[matchFrom (lit "b"),
    .ofWith ⟨false, false, [⟨.var (lit "a"), []⟩, ⟨.var (lit "r"), []⟩, ⟨typeOfR, lit "t"⟩], [], none, none, none⟩,
    matchFrom (lit "c"),
    .ofReturn ⟨false, false, [⟨.var (lit "t"), []⟩, ⟨typeOfR, []⟩], [], none, none⟩], []⟩

/-- The step of `(a)-[r]->(finish)`. -/
def hopTo (finish : Str) : Expand := ⟨lit "a", lit "r", finish, [], .dirOut, false, -1, -1, false, false, false⟩

/-- The plan of `MATCH (a)-[r]->(b)`. -/
def planHop : Plan.Op := .expand (.allNodesScan (lit "a")) (hopTo (lit "b"))

/-- The inputs of an operator. -/
def inputsOf : Plan.Op → List Plan.Op
  | .expand input _ | .shortestPath input _ | .filter input _ | .project input _ _ | .aggregate input _ _ _
  | .sort input _ | .skip input _ | .limit input _ | .unwind input _ _ | .create input _ | .merge input _
  | .setItems input _ | .remove input _ | .delete input _ _ => [input]
  | .cartesianProduct left right => [left, right]
  | .outerApply outer inner _ | .apply outer inner => [outer, inner]
  | .union parts _ _ => parts
  | _ => []

/-- An operator is part of a plan. -/
inductive PartOf (p : Plan.Op) : Plan.Op → Prop
  | self : PartOf p p
  | input {q r : Plan.Op} (among : q ∈ inputsOf r) (below : PartOf p q) : PartOf p r

/-- The plan of the clauses before the second MATCH. -/
def beforeReuse : Plan.Op :=
  .project planHop [⟨.var (lit "a"), lit "a"⟩, ⟨.var (lit "r"), lit "r"⟩, ⟨typeOfR, lit "t"⟩] false

end Intreccio.Exec
