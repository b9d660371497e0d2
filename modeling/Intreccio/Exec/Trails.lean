import Intreccio.Exec.Run
import Intreccio.Exec.Denotation
import Intreccio.Foundation.Walks
import Intreccio.Graph.Adjacency
import Intreccio.Graph.Refinement
import Mathlib.Algebra.Group.Nat.Units

/-! The matches of an expand (`internal/exec/expand.go`): the trails that a variable-length search
enumerates, and how often a row is emitted for each.
-/

namespace Intreccio.Exec

open Kv Words Graph Ast Plan Program Walks List

namespace ExpandOp

/-- The relationship leads from `n` to `m` in the direction and with a type of the expand. -/
def Follows (e : ExpandOp) (s : Store) (n id m : UInt64) : Prop :=
  ∃ r, edgeAt s id = some r ∧ (∃ t ∈ e.typeFilter, typeMatches t r.type = true)
    ∧ ((e.x.dir ≠ .dirIn ∧ r.src = n ∧ r.dst = m) ∨ (e.x.dir ≠ .dirOut ∧ r.dst = n ∧ r.src = m))

/-- The relationship is listed more than once at its end: as an outgoing and as an incoming one, or
for more than one of the types.
-/
def Doubled (e : ExpandOp) (s : Store) (id : UInt64) : Prop :=
  ∃ r, edgeAt s id = some r
    ∧ ((e.x.dir = .dirBoth ∧ r.src = r.dst) ∨ 1 < e.typeFilter.countP (typeMatches · r.type))

end ExpandOp

def EdgeHit.hop (h : EdgeHit) : UInt64 × UInt64 := (h.ref.id, h.other)

section Steps

variable {s : Store} {e : ExpandOp} {n m id : UInt64}

theorem ExpandOp.Follows.determined {m' : UInt64} (left : e.Follows s n id m) (right : e.Follows s n id m')
    : m = m' := by
  obtain ⟨r, found, _, way⟩ := left
  obtain ⟨r', found', _, way'⟩ := right
  obtain rfl : r = r' := Option.some.inj (found.symm.trans found')
  obtain ⟨_, rfl, rfl⟩ | ⟨_, rfl, rfl⟩ := way <;> obtain ⟨_, here, rfl⟩ | ⟨_, here, rfl⟩ := way'
  · rfl
  · exact here
  · exact here
  · rfl

structure Gathered (s : Store) (e : ExpandOp) (n : UInt64) (hits : List EdgeHit) : Prop where
  recorded : ∀ h ∈ hits, OnRecord s h.ref
  mem : ∀ id m, (id, m) ∈ hits.map EdgeHit.hop ↔ e.Follows s n id m
  once : ∀ id m, e.Follows s n id m → ((hits.map EdgeHit.hop).count (id, m) = 1 ↔ ¬ e.Doubled s id)

theorem count_ends {types : List UInt32} {ends : EdgeRef → Prop} [DecidablePred ends] {refs : List EdgeRef}
    (far : EdgeRef → UInt64) (scanned : Scanned s types ends refs) {ref : EdgeRef} (recorded : OnRecord s ref)
    (m : UInt64)
    : (refs.map (fun r => (r.id, far r))).count (ref.id, m)
      = if far ref = m ∧ ends ref then types.countP (typeMatches · ref.type) else 0 := by
  have same (r : EdgeRef) (member : r ∈ refs) (id : r.id = ref.id) : r = ref :=
    (scanned.sound r member).1.unique recorded id
  rw [List.count, countP_map, ite_and, ← scanned.count_eq recorded]
  by_cases here : far ref = m
  · rw [if_pos here, List.count]
    refine countP_congr fun r member => ?_
    simp only [Function.comp_apply, beq_iff_eq, Prod.mk.injEq]
    constructor
    · exact fun found => same r member found.1
    · rintro rfl
      exact ⟨rfl, here⟩
  · rw [if_neg here, countP_eq_zero]
    intro r member found
    simp only [Function.comp_apply, beq_iff_eq, Prod.mk.injEq] at found
    exact here (same r member found.1 ▸ found.2)

theorem mem_ends {types : List UInt32} {ends : EdgeRef → Prop} {refs : List EdgeRef} (far : EdgeRef → UInt64)
    (scanned : Scanned s types ends refs) (id m : UInt64)
    : (id, m) ∈ refs.map (fun r => (r.id, far r))
      ↔ ∃ r, edgeAt s id = some r ∧ (∃ t ∈ types, typeMatches t r.type = true)
        ∧ ends ⟨id, r.type, r.src, r.dst⟩ ∧ far ⟨id, r.type, r.src, r.dst⟩ = m := by
  constructor
  · intro member
    obtain ⟨ref, listed, same⟩ := mem_map.mp member
    obtain ⟨rfl, rfl⟩ := Prod.mk.inj same
    obtain ⟨⟨r, found, src, type, dst⟩, meets, matched⟩ := scanned.mem.mp listed
    refine ⟨r, found, ?_⟩
    rw [src, type, dst]
    exact ⟨matched, meets, rfl⟩
  · rintro ⟨r, found, matched, meets, rfl⟩
    exact mem_map.mpr ⟨_, scanned.mem.mpr ⟨⟨r, found, rfl, rfl, rfl⟩, meets, matched⟩, rfl⟩

theorem run_gather (adjacent : Adjacent s) (e : ExpandOp) (n : UInt64)
    : ∃ hits, (e.gather n).run s = (.ok hits, s) ∧ Gathered s e n hits := by
  obtain ⟨out, ranOut, scannedOut⟩ :=
    run_scanIf (e.x.dir ≠ .dirIn) (adjacent.run_outScan n e.typeFilter)
  obtain ⟨inc, ranIn, scannedIn⟩ :=
    run_scanIf (e.x.dir ≠ .dirOut) (adjacent.run_inScan n e.typeFilter)
  rw [ite_not] at ranOut ranIn
  have hops : (out.map (fun r => (⟨r, r.dst⟩ : EdgeHit)) ++ inc.map (fun r => (⟨r, r.src⟩ : EdgeHit))).map EdgeHit.hop
      = out.map (fun r => (r.id, r.dst)) ++ inc.map (fun r => (r.id, r.src)) := by
    simp only [map_append, map_map]
    rfl
  refine ⟨out.map (fun r => ⟨r, r.dst⟩) ++ inc.map (fun r => ⟨r, r.src⟩), ?_, ?_, fun id m => ?_,
    fun id m follows => ?_⟩
  · rw [ExpandOp.gather, bind_eq, run_bind_of_ok ranOut, bind_eq, run_bind_of_ok ranIn]
    rfl
  · intro h member
    obtain first | later := mem_append.mp member
    · obtain ⟨r, listed, rfl⟩ := mem_map.mp first
      exact (scannedOut.sound r listed).1
    · obtain ⟨r, listed, rfl⟩ := mem_map.mp later
      exact (scannedIn.sound r listed).1
  · rw [hops, mem_append, mem_ends _ scannedOut, mem_ends _ scannedIn, ← exists_or]
    refine exists_congr fun r => ?_
    simp only [← and_or_left, and_assoc]
  · obtain ⟨r, found, matched, way⟩ := follows
    have recorded : OnRecord s ⟨id, r.type, r.src, r.dst⟩ := ⟨r, found, rfl, rfl, rfl⟩
    have doubled : e.Doubled s id
        ↔ (e.x.dir = .dirBoth ∧ r.src = r.dst) ∨ 1 < e.typeFilter.countP (typeMatches · r.type) := by
      simp [ExpandOp.Doubled, found]
    have some' : 0 < e.typeFilter.countP (typeMatches · r.type) := countP_pos_iff.mpr matched
    rw [hops, List.count_append, count_ends _ scannedOut recorded, count_ends _ scannedIn recorded, doubled]
    generalize e.typeFilter.countP (typeMatches · r.type) = times at some'
    cases dir : e.x.dir <;> grind

end Steps

/-- The relationships that `gather` lists for a node, each with the node it leads to. -/
def ExpandOp.hops (e : ExpandOp) (s : Store) (n : UInt64) : List (UInt64 × UInt64) :=
  ((answer s (e.gather n)).getD []).map EdgeHit.hop

def hitOf (t : UInt64 × List UInt64) : VarHit := ⟨t.1, t.2⟩

/-- The number of relationships lies between the bounds. A negative minimum stands for 1, a negative
maximum for the depth limit.
-/
def ExpandOp.Within (e : ExpandOp) (k : Nat) : Prop :=
  (if e.x.minHops < 0 then 1 else e.x.minHops) ≤ k
    ∧ k ≤ (if e.x.maxHops < 0 then (varExpandMaxDepth : Int) else e.x.maxHops)

instance (e : ExpandOp) (k : Nat) : Decidable (e.Within k) := inferInstanceAs (Decidable (_ ∧ _))

section Search

variable {s : Store} {e : ExpandOp} {n m id : UInt64}

theorem run_gather_hops (adjacent : Adjacent s) (e : ExpandOp) (n : UInt64)
    : ∃ hits, (e.gather n).run s = (.ok hits, s) ∧ hits.map EdgeHit.hop = e.hops s n ∧ Gathered s e n hits := by
  obtain ⟨hits, ran, gathered⟩ := run_gather adjacent e n
  refine ⟨hits, ran, ?_, gathered⟩
  rw [ExpandOp.hops, answer_of_read (congrArg Prod.fst ran)]
  rfl

theorem listed_iff (adjacent : Adjacent s) : Walks.Listed (e.hops s) n id m ↔ e.Follows s n id m := by
  obtain ⟨hits, _, same, gathered⟩ := run_gather_hops adjacent e n
  rw [Walks.Listed, ← same, gathered.mem]

theorem walk_follows (adjacent : Adjacent s) : Walk (Walks.Listed (e.hops s)) = Walk (e.Follows s) := by
  congr 1
  funext n id m
  exact propext (listed_iff adjacent)

theorem run_layer (adjacent : Adjacent s) (e : ExpandOp) (ts : List (UInt64 × List UInt64))
    : (e.layer (ts.map hitOf)).run s = (.ok ((ts.flatMap (longer (e.hops s))).map hitOf), s) := by
  induction ts with
  | nil => rfl
  | cons t rest ih =>
    obtain ⟨hits, ran, same, _⟩ := run_gather_hops adjacent e (hitOf t).toID
    have grown : (hits.filter (fun h => h.ref.id ∉ t.2)).map
          (fun h => (⟨h.other, t.2 ++ [h.ref.id]⟩ : VarHit))
        = (longer (e.hops s) t).map hitOf := by
      rw [longer, show e.hops s t.1 = _ from same.symm, filter_map, map_map, map_map]
      rfl
    refine (run_bind_of_ok ran).trans ((run_bind_of_ok ih).trans ?_)
    rw [flatMap_cons, map_append, ← grown]
    rfl

theorem run_layer_trails (adjacent : Adjacent s) (e : ExpandOp) (n : UInt64) (k : Nat)
    : (e.layer ((trails (e.hops s) n k).map hitOf)).run s
      = (.ok ((trails (e.hops s) n (k + 1)).map hitOf), s) :=
  run_layer adjacent e (trails (e.hops s) n k)

/-- The trails of the lengths from `k + 1` on, as far as the fuel goes. -/
theorem run_trails (adjacent : Adjacent s) (e : ExpandOp) (n : UInt64) (least fuel k : Nat)
    : (e.trails least fuel (k + 1) ((trails (e.hops s) n k).map hitOf)).run s
      = (.ok (((List.range' (k + 1) fuel).flatMap
          (fun j => if least ≤ j then trails (e.hops s) n j else [])).map hitOf), s) := by
  induction fuel generalizing k with
  | zero => rfl
  | succ fuel ih =>
    rw [ExpandOp.trails, bind_eq, run_bind_of_ok (run_layer_trails adjacent e n k)]
    by_cases stop : trails (e.hops s) n (k + 1) = []
    · -- no trail of this length: no longer ones either
      have none' (j : Nat) (later : j ∈ List.range' (k + 1) (fuel + 1)) : trails (e.hops s) n j = [] :=
        trails_eq_nil stop (mem_range'_1.mp later).1
      rw [if_pos (by simp [stop]), flatMap_eq_nil_iff.mpr (fun j later => by simp [none' j later])]
      rfl
    · rw [if_neg (by simpa using stop), bind_eq, run_bind_of_ok (ih (k + 1)), range'_succ,
        flatMap_cons, map_append]
      split <;> rfl

def ExpandOp.leastHops (e : ExpandOp) : Nat := if e.x.minHops < 0 then 1 else e.x.minHops.toNat

def ExpandOp.mostHops (e : ExpandOp) : Nat :=
  if e.x.maxHops < 0 then varExpandMaxDepth else e.x.maxHops.toNat

theorem within_iff {k : Nat} : e.Within k ↔ e.leastHops ≤ k ∧ k ≤ e.mostHops := by
  rw [ExpandOp.Within, ExpandOp.leastHops, ExpandOp.mostHops]
  refine and_congr ?_ ?_ <;> split <;> omega

/-- The search returns the trails of each length within the bounds, in the order of the lengths. -/
theorem run_bfs (adjacent : Adjacent s) (e : ExpandOp) (n : UInt64)
    : (e.bfs n).run s
      = (.ok (((List.range' 0 (e.mostHops + 1)).flatMap
          (fun k => if e.leastHops ≤ k then trails (e.hops s) n k else [])).map hitOf), s) := by
  have started : (e.trails e.leastHops e.mostHops 1 [⟨n, []⟩]).run s = _ :=
    run_trails adjacent e n e.leastHops e.mostHops 0
  rw [ExpandOp.bfs]
  change ((e.trails e.leastHops e.mostHops 1 [⟨n, []⟩]).bind (fun more =>
    Program.ret ((if e.leastHops = 0 then [⟨n, []⟩] else []) ++ more))).run s = _
  rw [run_bind_of_ok started, range'_succ, flatMap_cons, map_append]
  by_cases zero : e.leastHops = 0
  · rw [if_pos zero, if_pos (by omega)]
    rfl
  · rw [if_neg zero, if_neg (by omega)]
    rfl

theorem mem_searched {t : UInt64 × List UInt64}
    : t ∈ (List.range' 0 (e.mostHops + 1)).flatMap
          (fun k => if e.leastHops ≤ k then trails (e.hops s) n k else [])
      ↔ e.Within t.2.length ∧ t ∈ trails (e.hops s) n t.2.length := by
  have here {k : Nat} (found : t ∈ trails (e.hops s) n k) : k = t.2.length := by
    obtain ⟨hops, _, labels, _, rfl⟩ := mem_trails.mp found
    rw [← labels, length_map]
  rw [mem_flatMap, within_iff]
  constructor
  · rintro ⟨k, range, member⟩
    have bound := (mem_range'_1.mp range).2
    split at member
    next least =>
      obtain rfl := here member
      exact ⟨⟨least, by omega⟩, member⟩
    next => cases member
  · rintro ⟨⟨least, most⟩, member⟩
    refine ⟨t.2.length, mem_range'_1.mpr ⟨by omega, by omega⟩, ?_⟩
    rwa [if_pos least]

/-- The search ends on every graph, cycles or not, and finds the trails within the bounds: the walks
along relationships of the direction and types, none of them twice.
-/
theorem bfs_enumerates_trails (adjacent : Adjacent s) (e : ExpandOp) (n : UInt64)
    : ∃ hits, (e.bfs n).run s = (.ok hits, s)
      ∧ ∀ m es, ⟨m, es⟩ ∈ hits
        ↔ ∃ hops, Walk (e.Follows s) n hops m ∧ hops.map Prod.fst = es ∧ es.Nodup ∧ e.Within es.length := by
  refine ⟨_, run_bfs adjacent e n, fun m es => ?_⟩
  have member : (⟨m, es⟩ : VarHit) ∈ ((List.range' 0 (e.mostHops + 1)).flatMap
        (fun k => if e.leastHops ≤ k then trails (e.hops s) n k else [])).map hitOf
      ↔ e.Within es.length ∧ (m, es) ∈ trails (e.hops s) n es.length := by
    rw [← mem_searched (t := (m, es)), List.mem_map]
    constructor
    · rintro ⟨t, found, same⟩
      obtain ⟨rfl, rfl⟩ := VarHit.mk.inj same
      exact found
    · exact fun found => ⟨(m, es), found, rfl⟩
  rw [member, mem_trails, walk_follows adjacent]
  constructor
  · rintro ⟨within, hops, walk, labels, distinct, _⟩
    exact ⟨hops, walk, labels, distinct, within⟩
  · rintro ⟨hops, walk, labels, distinct, within⟩
    exact ⟨within, hops, walk, labels, distinct, by rw [← labels, List.length_map]⟩

theorem bfs_enumerates_trails_looped
    : let s := ((script looped).run .empty).2
      let e : ExpandOp := ⟨⟨lit "n", lit "r", lit "m", [], .dirBoth, true, 0, -1, false, false, false⟩, []⟩
      Adjacent s ∧ ∃ hits, (e.bfs 1).run s = (.ok hits, s)
        ∧ ∀ m es, ⟨m, es⟩ ∈ hits
          ↔ ∃ hops, Walk (e.Follows s) 1 hops m ∧ hops.map Prod.fst = es ∧ es.Nodup ∧ e.Within es.length :=
  ⟨consistent_looped.adjacent, bfs_enumerates_trails consistent_looped.adjacent _ 1⟩

end Search

/-- A bound far end has to be the node that is reached. -/
def ExpandOp.accepts (e : ExpandOp) (b : Row) (m : UInt64) : Bool := (e.existing b).all (fun n => n.id = m)

/-- Two rows bind the same relationships and the same far end. -/
def SameMatch (x : Expand) (r r' : Row) : Prop :=
  r.get x.relVar = r'.get x.relVar ∧ r.get x.toVar = r'.get x.toVar

/-- The hops of a match: a single relationship, or a trail within the bounds. -/
def ExpandOp.Matches (e : ExpandOp) (s : Store) (n : UInt64) (hops : List (UInt64 × UInt64)) (m : UInt64)
    : Prop :=
  Walk (e.Follows s) n hops m ∧ (hops.map Prod.fst).Nodup
    ∧ if e.x.varLength then e.Within hops.length else hops.length = 1

theorem SameMatch.rfl {x : Expand} {r : Row} : SameMatch x r r := ⟨Eq.refl _, Eq.refl _⟩

/-- Rows made of the items of a list, which a key tells apart: no two rows are the same match when each
key that makes a row occurs once.
-/
theorem pairwise_filterMap_iff {α κ : Type} [BEq κ] [LawfulBEq κ] {x : Expand} {l : List α}
    {g : α → Option Row} (key : α → κ) (makes : κ → Bool)
    (some_iff : ∀ a ∈ l, (g a).isSome = makes (key a))
    (alone : ∀ a ∈ l, ∀ a' ∈ l, key a = key a' → a = a')
    (named : ∀ a ∈ l, ∀ a' ∈ l, ∀ r r', g a = some r → g a' = some r' → SameMatch x r r' → key a = key a')
    : (l.filterMap g).Pairwise (fun r r' => ¬ SameMatch x r r')
      ↔ ∀ k ∈ l.map key, makes k = true → (l.map key).count k = 1 := by
  have rows : (l.filterMap g).Pairwise (fun r r' => ¬ SameMatch x r r')
      ↔ ((l.map key).filter makes).Nodup := by
    rw [pairwise_filterMap, List.Nodup, pairwise_filter, pairwise_map]
    refine List.Pairwise.iff_of_mem fun {a a'} member member' => ?_
    rw [← some_iff a member, ← some_iff a' member', Option.isSome_iff_exists, Option.isSome_iff_exists]
    constructor
    · rintro differ ⟨r, made⟩ ⟨r', made'⟩ keys
      obtain rfl := alone a member a' member' keys
      obtain rfl := Option.some.inj (made.symm.trans made')
      exact differ r made r made .rfl
    · intro differ r made r' made' same
      exact differ ⟨r, made⟩ ⟨r', made'⟩ (named a member a' member' r r' made made' same)
  rw [rows, nodup_iff_count_eq_one]
  constructor
  · intro once k member made
    rw [← once k (mem_filter.mpr ⟨member, made⟩), count_filter made]
  · intro once k member
    obtain ⟨listed, made⟩ := mem_filter.mp member
    rw [count_filter made, once k listed made]

section Rows

variable {s : Store} {cov : Coverage} {e : ExpandOp} {n m id : UInt64} {b : Row}

theorem nodeAt_of_follows (consistent : Consistent cov s) (follows : e.Follows s n id m)
    : Graph.nodeAt s m ≠ none := by
  obtain ⟨r, found, _, way⟩ := follows
  obtain ⟨src, dst⟩ := (consistent.edges id).ends r found
  obtain ⟨_, _, rfl⟩ | ⟨_, _, rfl⟩ := way
  · exact (consistent.nodes.aligned r.dst).cell_iff.mp dst
  · exact (consistent.nodes.aligned r.src).cell_iff.mp src

variable {h : EdgeHit}

theorem run_edge (consistent : Consistent cov s) (recorded : OnRecord s h.ref)
    : ∃ r, (e.edge h).run s = (.ok (.edge r), s) ∧ r.id = h.ref.id := by
  rw [ExpandOp.edge]
  split
  · exact ⟨_, rfl, rfl⟩
  · obtain ⟨r, found, _⟩ := recorded
    have ran := run_getEdge (consistent.edges h.ref.id)
    rw [found] at ran
    exact ⟨_, by rw [bind_eq, run_bind_of_ok ran]; rfl, rfl⟩

theorem run_toNode (consistent : Consistent cov s) (held : Graph.nodeAt s h.other ≠ none)
    : ∃ v, (e.toNode b h).run s = (.ok v, s) := by
  rw [ExpandOp.toNode]
  split
  · exact ⟨_, rfl⟩
  · split
    · exact ⟨_, rfl⟩
    · obtain ⟨r, found⟩ := Option.ne_none_iff_exists'.mp held
      have ran := run_getNode (consistent.nodes.aligned h.other)
      rw [found] at ran
      exact ⟨_, by rw [bind_eq, run_bind_of_ok ran]; rfl⟩

theorem any_existing : (e.existing b).any (fun n => n.id ≠ m) = !e.accepts b m := by
  rw [ExpandOp.accepts]
  cases e.existing b <;> simp

theorem emit_rejected (rejected : e.accepts b h.other = false) : (answer s (e.emit b h)).join = none := by
  rw [ExpandOp.emit, any_existing, rejected]
  rfl

theorem emit_accepted (consistent : Consistent cov s) (recorded : OnRecord s h.ref)
    (held : Graph.nodeAt s h.other ≠ none) (accepted : e.accepts b h.other = true)
    : ∃ row r, (answer s (e.emit b h)).join = some row ∧ row.get e.x.relVar = some (.edge r)
      ∧ r.id = h.ref.id := by
  obtain ⟨v, ranNode⟩ := run_toNode (e := e) (b := b) consistent held
  obtain ⟨r, ranEdge, same⟩ := run_edge (e := e) consistent recorded
  refine ⟨(b.set e.x.toVar v).set e.x.relVar (.edge r), r, ?_, by simp [OrderedMap.get_set], same⟩
  rw [ExpandOp.emit, any_existing, accepted, Bool.not_true, if_neg Bool.false_ne_true]
  simp only [answer, Program.read, bind_eq, run_bind, ranNode, ranEdge]
  rfl

theorem run_fetchEdges (consistent : Consistent cov s) {ids : List UInt64}
    (recorded : ∀ id ∈ ids, edgeAt s id ≠ none)
    : ∃ edges, (fetchEdges ids).run s = (.ok edges, s) ∧ edges.map EdgeOf.id = ids := by
  induction ids with
  | nil => exact ⟨[], rfl, rfl⟩
  | cons id rest ih =>
    obtain ⟨edges, ran, same⟩ := ih fun id member => recorded id (mem_cons_of_mem _ member)
    obtain ⟨r, found⟩ := Option.ne_none_iff_exists'.mp (recorded id mem_cons_self)
    have first := run_getEdge (consistent.edges id)
    rw [found] at first
    refine ⟨edgeOf ⟨r, id⟩ :: edges, ?_, by rw [map_cons, same]; rfl⟩
    rw [fetchEdges, bind_eq, run_bind_of_ok first, bind_eq, run_bind_of_ok ran]
    rfl

theorem emitTrail_rejected (consistent : Consistent cov s) (hit : VarHit)
    (rejected : (e.accepts b hit.toID && (Graph.nodeAt s hit.toID).isSome) = false)
    : (answer s (e.emitTrail b hit)).join = none := by
  rw [ExpandOp.emitTrail, any_existing]
  cases accepted : e.accepts b hit.toID with
  | false => rfl
  | true =>
    have missing : Graph.nodeAt s hit.toID = none := by simpa [accepted] using rejected
    have first := run_getNode (consistent.nodes.aligned hit.toID)
    rw [missing] at first
    rw [Bool.not_true, if_neg Bool.false_ne_true]
    simp only [answer, Program.read, bind_eq, run_bind, first]
    rfl

theorem emitTrail_accepted (consistent : Consistent cov s) (hit : VarHit)
    (recorded : ∀ id ∈ hit.edges, edgeAt s id ≠ none)
    (accepted : (e.accepts b hit.toID && (Graph.nodeAt s hit.toID).isSome) = true)
    : ∃ row edges, (answer s (e.emitTrail b hit)).join = some row
      ∧ row.get e.x.relVar = some (.edges edges) ∧ edges.map EdgeOf.id = hit.edges := by
  obtain ⟨allowed, held⟩ := Bool.and_eq_true_iff.mp accepted
  obtain ⟨r, held⟩ := Option.isSome_iff_exists.mp held
  have first := run_getNode (consistent.nodes.aligned hit.toID)
  rw [held] at first
  obtain ⟨edges, ran, same⟩ := run_fetchEdges consistent recorded
  refine ⟨(b.set e.x.toVar (ofNode ⟨r, hit.toID⟩)).set e.x.relVar (.edges edges), edges, ?_,
    by simp [OrderedMap.get_set], same⟩
  rw [ExpandOp.emitTrail, any_existing, allowed, Bool.not_true, if_neg Bool.false_ne_true]
  simp only [answer, Program.read, bind_eq, run_bind, first, Option.elim_some, ran]
  rfl

/-- A single relationship is emitted once, unless it is doubled. -/
theorem pairwise_expand (consistent : Consistent cov s) (ctx : Context) (c : Choices) {start : NodeOf Val}
    (source : nodeAt b e.x.fromVar = some start)
    : (fanRows ctx s (.expand e) b c).Pairwise (fun r r' => ¬ SameMatch e.x r r')
      ↔ ∀ id m, e.Follows s start.id id m → e.accepts b m = true → ¬ e.Doubled s id := by
  obtain ⟨hits, ran, gathered⟩ := run_gather consistent.adjacent e start.id
  have spread : answer s (e.spread b) = some (hits.map (e.emit b)) := by
    simp only [answer, Program.read, ExpandOp.spread, source, bind_eq, run_bind, ran]
    rfl
  have follows (h : EdgeHit) (member : h ∈ hits) : e.Follows s start.id h.ref.id h.other :=
    (gathered.mem _ _).mp (mem_map_of_mem member)
  have emitted (h : EdgeHit) (member : h ∈ hits) := emit_accepted (e := e) (b := b) consistent
    (gathered.recorded h member) (nodeAt_of_follows consistent (follows h member))
  have bound (h : EdgeHit) (member : h ∈ hits) {row : Row} (made : (answer s (e.emit b h)).join = some row)
      : ∃ r, row.get e.x.relVar = some (.edge r) ∧ r.id = h.ref.id := by
    cases accepted : e.accepts b h.other with
    | false => cases made.symm.trans (emit_rejected accepted)
    | true =>
      obtain ⟨_, r, made', held, same⟩ := emitted h member accepted
      obtain rfl := Option.some.inj (made.symm.trans made')
      exact ⟨r, held, same⟩
  rw [fanRows, FanOut.spread, spread, Option.getD_some, pendingRows, filterMap_map,
    pairwise_filterMap_iff EdgeHit.hop (fun hop => e.accepts b hop.2)]
  · constructor
    · intro once id m taken accepted
      have member := (gathered.mem id m).mpr taken
      exact (gathered.once id m taken).mp (once (id, m) member accepted)
    · rintro single ⟨id, m⟩ member accepted
      have taken := (gathered.mem id m).mp member
      exact (gathered.once id m taken).mpr (single id m taken accepted)
  · intro h member
    cases accepted : e.accepts b h.hop.2 with
    | false => exact congrArg Option.isSome (emit_rejected accepted)
    | true =>
      obtain ⟨row, _, made, _⟩ := emitted h member accepted
      exact congrArg Option.isSome made
  · intro h member h' member' same
    obtain ⟨id, other⟩ := Prod.mk.inj same
    have ref := (gathered.recorded h member).unique (gathered.recorded h' member') id
    cases h
    cases h'
    exact EdgeHit.mk.injEq .. ▸ ⟨ref, other⟩
  · rintro h member h' member' row row' made made' ⟨same, _⟩
    obtain ⟨r, held, id⟩ := bound h member made
    obtain ⟨r', held', id'⟩ := bound h' member' made'
    obtain rfl : r = r' := by simpa using held.symm.trans (same.trans held')
    have follows' := follows h' member'
    rw [← id', id] at follows'
    exact Prod.ext (id.symm.trans id') ((follows h member).determined follows')

variable {hops : List (UInt64 × UInt64)}

/-- The hops of a walk are listed once each when none of them is doubled. -/
theorem prod_weights (adjacent : Adjacent s) (walk : Walk (e.Follows s) n hops m)
    : (weights (e.hops s) n hops).prod = 1 ↔ ∀ hop ∈ hops, ¬ e.Doubled s hop.1 := by
  induction hops generalizing n with
  | nil => simp [weights]
  | cons hop rest ih =>
    obtain ⟨hits, _, same, gathered⟩ := run_gather_hops adjacent e n
    rw [weights, prod_cons, mul_eq_one, ih walk.2, ← same, gathered.once _ _ walk.1,
      forall_mem_cons]

/-- A trail within the bounds is found as often as its hops can be chosen. -/
theorem count_searched (adjacent : Adjacent s) (walk : Walk (e.Follows s) n hops m)
    (distinct : (hops.map Prod.fst).Nodup) (within : e.Within hops.length)
    : ((List.range' 0 (e.mostHops + 1)).flatMap
          (fun k => if e.leastHops ≤ k then trails (e.hops s) n k else [])).count (m, hops.map Prod.fst)
      = (weights (e.hops s) n hops).prod := by
  obtain ⟨least, most⟩ := within_iff.mp within
  have listed : Walk (Walks.Listed (e.hops s)) n hops m := by rwa [walk_follows adjacent]
  rw [count_flatMap_of (x := hops.length), if_pos least, count_eq_one_of_mem nodup_range'
    (mem_range'_1.mpr ⟨by omega, by omega⟩), Nat.one_mul]
  · refine count_trails (fun x id y y' left right => ?_) listed distinct
    exact ((listed_iff adjacent).mp left).determined ((listed_iff adjacent).mp right)
  · intro k _ other
    split
    · refine count_eq_zero.mpr fun member => other ?_
      obtain ⟨hops', _, labels, _, rfl⟩ := mem_trails.mp member
      simpa using congrArg List.length labels
    · rfl

theorem edgeAt_of_walk (walk : Walk (e.Follows s) n hops m) (used : id ∈ hops.map Prod.fst)
    : edgeAt s id ≠ none := by
  induction hops generalizing n with
  | nil => cases used
  | cons hop rest ih =>
    obtain rfl | later := mem_cons.mp used
    · obtain ⟨r, found, _⟩ := walk.1
      simp [found]
    · exact ih walk.2 later

theorem nodeAt_of_walk (consistent : Consistent cov s) (walk : Walk (e.Follows s) n hops m)
    (some' : hops ≠ [])
    : Graph.nodeAt s m ≠ none := by
  obtain ⟨rest, ⟨id, _⟩, rfl⟩ := (eq_nil_or_concat hops).resolve_left some'
  rw [concat_eq_append] at walk
  obtain ⟨_, _, taken, rfl⟩ := walk_snoc.mp walk
  exact nodeAt_of_follows consistent taken

/-- A trail is emitted once, unless one of its relationships is doubled. -/
theorem pairwise_varExpand (consistent : Consistent cov s) (ctx : Context) (c : Choices) {start : NodeOf Val}
    (source : nodeAt b e.x.fromVar = some start)
    : (fanRows ctx s (.varExpand e) b c).Pairwise (fun r r' => ¬ SameMatch e.x r r')
      ↔ ∀ hops m, Walk (e.Follows s) start.id hops m → (hops.map Prod.fst).Nodup → e.Within hops.length
        → e.accepts b m = true → ∀ hop ∈ hops, ¬ e.Doubled s hop.1 := by
  have adjacent := consistent.adjacent
  have ran := run_bfs adjacent e start.id
  have found {t : UInt64 × List UInt64} := mem_searched (s := s) (e := e) (n := start.id) (t := t)
  have times {hops : List (UInt64 × UInt64)} {m : UInt64} (walk : Walk (e.Follows s) start.id hops m) :=
    count_searched adjacent walk
  generalize (List.range' 0 (e.mostHops + 1)).flatMap
    (fun k => if e.leastHops ≤ k then trails (e.hops s) start.id k else []) = ts at ran found times
  have spread : answer s (e.spreadTrails b) = some ((ts.map hitOf).map (e.emitTrail b)) := by
    simp only [answer, Program.read, ExpandOp.spreadTrails, source, bind_eq, run_bind, ran]
    rfl
  have walks {t : UInt64 × List UInt64} (member : t ∈ ts)
      : e.Within t.2.length ∧ ∃ hops, Walk (e.Follows s) start.id hops t.1 ∧ hops.map Prod.fst = t.2
        ∧ t.2.Nodup := by
    obtain ⟨within, trail⟩ := found.mp member
    obtain ⟨hops, walk, labels, distinct, _⟩ := mem_trails.mp trail
    exact ⟨within, hops, walk_follows adjacent ▸ walk, labels, distinct⟩
  have emitted (t : UInt64 × List UInt64) (member : t ∈ ts) := emitTrail_accepted (e := e) (b := b) consistent
    (hitOf t) (fun id used => by
      obtain ⟨_, hops, walk, labels, _⟩ := walks member
      exact edgeAt_of_walk walk (labels ▸ used))
  have bound (t : UInt64 × List UInt64) (member : t ∈ ts) {row : Row}
      (made : (answer s (e.emitTrail b (hitOf t))).join = some row)
      : ∃ edges, row.get e.x.relVar = some (.edges edges) ∧ edges.map EdgeOf.id = t.2 := by
    cases accepted : e.accepts b t.1 && (Graph.nodeAt s t.1).isSome with
    | false => cases made.symm.trans (emitTrail_rejected consistent (hitOf t) accepted)
    | true =>
      obtain ⟨_, edges, made', held, same⟩ := emitted t member accepted
      obtain rfl := Option.some.inj (made.symm.trans made')
      exact ⟨edges, held, same⟩
  rw [fanRows, FanOut.spread, spread, Option.getD_some, pendingRows, filterMap_map, filterMap_map,
    pairwise_filterMap_iff id (fun t => e.accepts b t.1 && (Graph.nodeAt s t.1).isSome), map_id]
  · constructor
    · intro once hops m walk distinct within accepted
      cases hops with
      | nil => exact fun _ member => absurd member not_mem_nil
      | cons first rest =>
        rw [← prod_weights adjacent walk, ← times walk distinct within]
        have held := nodeAt_of_walk consistent walk (cons_ne_nil first rest)
        refine once _ (found.mpr ⟨by simpa using within, mem_trails.mpr ⟨first :: rest, ?_, rfl, distinct, ?_⟩⟩) ?_
        · rwa [walk_follows adjacent]
        · rw [length_map]
        · rw [Bool.and_eq_true_iff]
          exact ⟨accepted, Option.isSome_iff_ne_none.mpr held⟩
    · intro single t member accepted
      obtain ⟨within, hops, walk, labels, distinct⟩ := walks member
      rw [← labels] at within distinct
      rw [length_map] at within
      have counted := times walk distinct within
      rw [labels] at counted
      rw [show t = (t.1, t.2) from rfl, counted, prod_weights adjacent walk]
      exact single hops t.1 walk distinct within (Bool.and_eq_true_iff.mp accepted).1
  · intro t member
    change (answer s (e.emitTrail b (hitOf t))).join.isSome = _
    cases accepted : e.accepts b (id t).1 && (Graph.nodeAt s (id t).1).isSome with
    | false => exact congrArg Option.isSome (emitTrail_rejected consistent (hitOf t) accepted)
    | true =>
      obtain ⟨row, _, made, _⟩ := emitted t member accepted
      exact congrArg Option.isSome made
  · exact fun _ _ _ _ same => same
  · rintro t member t' member' row row' made made' ⟨same, _⟩
    obtain ⟨edges, held, ids⟩ := bound t member made
    obtain ⟨edges', held', ids'⟩ := bound t' member' made'
    obtain rfl : edges = edges' := by simpa using held.symm.trans (same.trans held')
    obtain ⟨_, hops, walk, labels, _⟩ := walks member
    obtain ⟨_, hops', walk', labels', _⟩ := walks member'
    have same : t.2 = t'.2 := ids.symm.trans ids'
    obtain rfl := walk.labels_unique (fun _ _ _ _ left right => left.determined right) walk'
      (labels.trans (same.trans labels'.symm))
    exact Prod.ext (walk.end_unique walk') same

end Rows

def resolved (s : Store) (x : Expand) : ExpandOp := ⟨x, (answer s (lookupTypes x.types)).getD []⟩

/-- Each match is emitted once exactly when no match runs over a doubled relationship: an undirected
one from a node to itself, or one whose type the expand lists twice.
-/
theorem emits_once_iff {s : Store} {cov : Coverage} (consistent : Consistent cov s) (ctx : Context) (x : Expand)
    (b : Row) (c : Choices)
    : (fanRows ctx s (expandKind s x) b c).Pairwise (fun r r' => ¬ SameMatch x r r')
      ↔ ∀ start hops m, nodeAt b x.fromVar = some start → (resolved s x).Matches s start.id hops m
        → (resolved s x).accepts b m = true → ∀ hop ∈ hops, ¬ (resolved s x).Doubled s hop.1 := by
  have kind : expandKind s x = if x.varLength then .varExpand (resolved s x) else .expand (resolved s x) := rfl
  cases source : nodeAt b x.fromVar with
  | none =>
    have nothing : fanRows ctx s (expandKind s x) b c = [] := by
      rw [kind]
      split
      · simp only [fanRows, FanOut.spread, ExpandOp.spreadTrails, show (resolved s x).x = x from rfl, source]
        rfl
      · simp only [fanRows, FanOut.spread, ExpandOp.spread, show (resolved s x).x = x from rfl, source]
        rfl
    rw [nothing]
    exact ⟨fun _ _ _ _ none' => (nomatch none'), fun _ => .nil⟩
  | some start =>
    rw [kind]
    cases long : x.varLength with
    | true =>
      rw [if_pos rfl]
      refine (pairwise_varExpand (e := resolved s x) consistent ctx c source).trans ?_
      constructor
      · rintro once _ hops m same ⟨walk, distinct, within⟩ accepted
        obtain rfl := Option.some.inj same
        rw [show (resolved s x).x.varLength = true from long, if_pos rfl] at within
        exact once hops m walk distinct within accepted
      · intro once hops m walk distinct within accepted
        refine once start hops m rfl ⟨walk, distinct, ?_⟩ accepted
        rwa [show (resolved s x).x.varLength = true from long, if_pos rfl]
    | false =>
      rw [if_neg Bool.false_ne_true]
      refine (pairwise_expand (e := resolved s x) consistent ctx c source).trans ?_
      constructor
      · rintro once _ hops m same ⟨walk, _, single⟩ accepted
        obtain rfl := Option.some.inj same
        rw [show (resolved s x).x.varLength = false from long, if_neg Bool.false_ne_true] at single
        obtain ⟨⟨id, m'⟩, rfl⟩ := List.length_eq_one_iff.mp single
        obtain ⟨taken, rfl⟩ := walk
        simpa using once id m' taken accepted
      · intro once id m taken accepted
        refine once start [(id, m)] m rfl ⟨⟨taken, rfl⟩, List.nodup_singleton id, ?_⟩ accepted (id, m)
          List.mem_cons_self
        rw [show (resolved s x).x.varLength = false from long, if_neg Bool.false_ne_true]
        rfl

/-- `(n)-[r]->(m)`, or `(n)-[r]-(m)`. -/
def hopFrom (dir : Direction) : Expand := ⟨lit "n", lit "r", lit "m", [], dir, false, -1, -1, false, false, false⟩

def loopedNode : Row := OrderedMap.empty.set (lit "n") (.node ⟨1, [1], [(1, .int 7)]⟩)

theorem emits_once_looped
    : let s := ((script looped).run .empty).2
      Consistent .present s
        ∧ (fanRows .bare s (expandKind s (hopFrom .dirOut)) loopedNode .ordered).Pairwise
          (fun r r' => ¬ SameMatch (hopFrom .dirOut) r r') := by
  intro s
  refine ⟨consistent_looped, (emits_once_iff consistent_looped _ _ _ _).mpr ?_⟩
  rintro start hops m source matched accepted hop member ⟨r, _, ⟨both, _⟩ | twice⟩
  · cases both
  · exact absurd (lt_of_lt_of_le twice List.countP_le_length) (by decide)

/-- An undirected expand over a relationship from a node to itself emits it twice. -/
theorem not_emits_once_undirected
    : ¬ ∀ ctx s x b c, Consistent .present s
      → (fanRows ctx s (expandKind s x) b c).Pairwise (fun r r' => ¬ SameMatch x r r') := by
  intro always
  have once := always .bare _ (hopFrom .dirBoth) loopedNode .ordered consistent_looped
  have loop : (edgeAt ((script looped).run .empty).2 1).any (fun r => r.src = 1 && r.dst = 1) = true := by
    decide +kernel
  obtain ⟨r, found, ends⟩ := (Option.any_eq_true _ _).mp loop
  obtain ⟨src, dst⟩ : r.src = 1 ∧ r.dst = 1 := by simpa using ends
  have source : nodeAt loopedNode (lit "n") = some ⟨1, [1], [(1, .int 7)]⟩ := rfl
  refine (pairwise_expand (e := resolved _ (hopFrom .dirBoth)) consistent_looped _ _ source).mp once 1 1
    ?_ rfl ?_
  · exact ⟨r, found, ⟨0, List.mem_singleton.mpr rfl, rfl⟩, .inl ⟨nofun, src, dst⟩⟩
  · exact ⟨r, found, .inl ⟨rfl, src.trans dst.symm⟩⟩

end Intreccio.Exec
