import Intreccio.Foundation.Walks
import Intreccio.Graph.Adjacency
import Intreccio.Graph.Refinement

/-! The bidirectional search finds exactly the shortest paths.
Each side of the search knows the nodes up to a distance from its start and, for each of them, the
last hops of all shortest walks to it. While the two sides have no node in common, every path is
longer than the two levels together; so the first layer in which they meet lies in the middle of the
shortest paths.
-/

namespace Intreccio.Graph

open Kv Kv.Program Words Walks List OrderedMap

/-- The relationship leads from `n` to `m`, along its direction with `out` and against it with `inc`. -/
def Joins (s : Store) (types : List UInt32) (out inc : Bool) (n : UInt64) (ref : EdgeRef) (m : UInt64) : Prop :=
  OnRecord s ref ∧ (∃ t ∈ types, typeMatches t ref.type = true)
    ∧ ((out = true ∧ ref.src = n ∧ ref.dst = m) ∨ (inc = true ∧ ref.dst = n ∧ ref.src = m))

/-- No relationship matches two entries of the list. Type 0 stands for every type. -/
def DuplicateFree (types : List UInt32) : Prop := types.Nodup ∧ (0 ∈ types → types = [0])

/-- The path that takes the hops from a node on. -/
def pathOf (a : UInt64) (hops : List (EdgeRef × UInt64)) : Path := ⟨a :: hops.map Prod.snd, hops.map Prod.fst⟩

section

variable {s : Store} {types : List UInt32} {out inc : Bool} {n m : UInt64} {ref : EdgeRef}

theorem joins_reverse : Joins s types out inc n ref m ↔ Joins s types inc out m ref n := by
  refine and_congr_right' (and_congr_right' ?_)
  rw [or_comm]
  refine or_congr ?_ ?_ <;> exact and_congr_right' and_comm

theorem step_reverse : (fun x e y => Joins s types out inc y e x) = Joins s types inc out := by
  funext x e y
  exact propext joins_reverse

theorem joins_ends {x y x' y' : UInt64} (left : Joins s types out inc x ref y)
    (right : Joins s types out inc x' ref y')
    : x = x' ∨ x = y' := by
  obtain ⟨_, _, ⟨_, rfl, rfl⟩ | ⟨_, rfl, rfl⟩⟩ := left <;>
    obtain ⟨_, _, ⟨_, rfl, rfl⟩ | ⟨_, rfl, rfl⟩⟩ := right <;> simp

theorem DuplicateFree.countP_le (free : DuplicateFree types) (type : UInt32)
    : types.countP (typeMatches · type) ≤ 1 := by
  obtain ⟨once, every⟩ := free
  by_cases any : 0 ∈ types
  · rw [every any]
    exact countP_le_length
  · have same : types.countP (typeMatches · type) = types.count type := by
      refine countP_congr fun t member => ?_
      have nonzero : t ≠ 0 := fun zero => any (zero ▸ member)
      rw [typeMatches_iff, beq_iff_eq]
      exact ⟨fun found => (found.resolve_left nonzero).symm, fun found => .inr found.symm⟩
    rw [same]
    exact nodup_iff_count_le_one.mp once type

theorem pathOf_injective (a : UInt64) : Function.Injective (pathOf a) := by
  intro hops hops' same
  obtain ⟨nodes, rels⟩ := Path.mk.inj same
  have nodes := (List.cons.inj nodes).2
  rw [← zip_unzip hops, ← zip_unzip hops', unzip_eq_map, unzip_eq_map]
  exact congrArg₂ List.zip rels nodes

theorem pathOf_snoc (a : UInt64) (hops : List (EdgeRef × UInt64)) (ref : EdgeRef) (m : UInt64)
    : pathOf a (hops ++ [(ref, m)]) = ⟨(pathOf a hops).nodes ++ [m], (pathOf a hops).rels ++ [ref]⟩ := by
  simp [pathOf]

/-- The second half of a path is found from its end. -/
theorem concat_pathOf (a b : UInt64) (hops hops' : List (EdgeRef × UInt64))
    : concat (pathOf a hops) (pathOf b hops') = pathOf a (hops ++ back b hops') := by
  have nodes : (b :: hops'.map Prod.snd).dropLast.reverse = (back b hops').map Prod.snd := by
    induction hops' generalizing b with
    | nil => rfl
    | cons hop rest ih =>
      rw [map_cons, dropLast_cons_cons, reverse_cons, ih, back, map_append]
      rfl
  simp only [concat, pathOf, nodes, map_append, labels_back, cons_append]

end

/-- What `neighbors` lists for a node: the relationships to follow, those to another node once. -/
structure Neighbored (s : Store) (types : List UInt32) (out inc : Bool) (n : UInt64) (edges : List EdgeRef)
    : Prop where
  mem : ∀ ref, ref ∈ edges ↔ ∃ m, Joins s types out inc n ref m
  once : ∀ ref m, Joins s types out inc n ref m → m ≠ n → edges.count ref = 1

theorem run_neighbors {s : Store} (adjacent : Adjacent s) {types : Option (List UInt32)}
    (free : DuplicateFree (types.getD [0])) (n : UInt64) (out inc : Bool)
    : ∃ edges, (neighbors n out inc types).run s = (.ok edges, s)
      ∧ Neighbored s (types.getD [0]) out inc n edges := by
  obtain ⟨outs, ranOut, scannedOut⟩ := run_scanIf (out = true) (adjacent.run_outScan n (types.getD [0]))
  obtain ⟨incs, ranIn, scannedIn⟩ := run_scanIf (inc = true) (adjacent.run_inScan n (types.getD [0]))
  refine ⟨outs ++ incs, ?_, fun ref => ?_, fun ref m joins other => ?_⟩
  · rw [neighbors, bind_eq, run_bind_of_ok ranOut, bind_eq, run_bind_of_ok ranIn]
    rfl
  · rw [mem_append, scannedOut.mem, scannedIn.mem]
    constructor
    · rintro (⟨recorded, ⟨on, src⟩, matched⟩ | ⟨recorded, ⟨on, dst⟩, matched⟩)
      · exact ⟨ref.dst, recorded, matched, .inl ⟨on, src, rfl⟩⟩
      · exact ⟨ref.src, recorded, matched, .inr ⟨on, dst, rfl⟩⟩
    · rintro ⟨m, recorded, matched, ⟨on, src, _⟩ | ⟨on, dst, _⟩⟩
      · exact .inl ⟨recorded, ⟨on, src⟩, matched⟩
      · exact .inr ⟨recorded, ⟨on, dst⟩, matched⟩
  · obtain ⟨recorded, matched, way⟩ := joins
    have bound := free.countP_le ref.type
    have some' := countP_pos_iff.mpr matched
    rw [List.count_append, scannedOut.count_eq recorded, scannedIn.count_eq recorded]
    grind

def farEnd (n : UInt64) (e : EdgeRef) : UInt64 := if e.src = n then e.dst else e.src

/-- The edge leads to `m`, another node. -/
def leadsTo (m : UInt64) (p : UInt64 × EdgeRef) : Bool := farEnd p.1 p.2 = m && m ≠ p.1

/-- The edges of some nodes in the order in which a layer visits them. -/
def visits (edges : UInt64 → List EdgeRef) (nodes : List UInt64) : List (UInt64 × EdgeRef) :=
  nodes.flatMap (fun n => (edges n).map (n, ·))

def BfsSide.visitAll (sd : BfsSide × List UInt64) (pairs : List (UInt64 × EdgeRef)) : BfsSide × List UInt64 :=
  pairs.foldl (fun sd p => sd.1.visit p.1 sd.2 p.2) sd

def BfsSide.predsOf (sd : BfsSide) (m : UInt64) : List Pred := (sd.preds.get m).getD []

/-- A side that has visited edges from the frontier of `old`. -/
structure Visited (old : BfsSide) (pairs : List (UInt64 × EdgeRef)) (sd : BfsSide) (next : List UInt64)
    : Prop where
  level : sd.level = old.level + 1
  out : sd.out = old.out
  inc : sd.inc = old.inc
  known : ∀ m d, old.depth.get m = some d → sd.depth.get m = some d
  reached : ∀ m, old.depth.get m = none → sd.depth.get m = if m ∈ next then some sd.level else none
  fresh : ∀ m, m ∈ next ↔ old.depth.get m = none ∧ ∃ p ∈ pairs, leadsTo m p = true
  once : next.Nodup
  preds
    : ∀ m, sd.predsOf m
      = old.predsOf m ++ if old.depth.get m = none then (pairs.filter (leadsTo m)).map (fun p => ⟨p.1, p.2⟩) else []

variable {edges : UInt64 → List EdgeRef}

section

variable {old sd : BfsSide} {pairs : List (UInt64 × EdgeRef)} {next : List UInt64} {n : UInt64} {e : EdgeRef}

theorem Visited.start (old : BfsSide) : Visited old [] { old with level := old.level + 1 } [] := by
  refine ⟨rfl, rfl, rfl, fun _ _ found => found, fun m missing => ?_, fun m => ?_, nodup_nil, fun m => ?_⟩
  · simp [missing]
  · simp
  · simp [BfsSide.predsOf]

theorem visit_eq (sd : BfsSide) (n : UInt64) (next : List UInt64) (e : EdgeRef)
    : sd.visit n next e
      = if farEnd n e = n then (sd, next)
        else
          let reach : BfsSide :=
            { sd with preds := sd.preds.set (farEnd n e) (sd.predsOf (farEnd n e) ++ [⟨n, e⟩]) }
          match sd.depth.get (farEnd n e) with
          | none => ({ reach with depth := sd.depth.set (farEnd n e) sd.level }, next ++ [farEnd n e])
          | some d => if d = sd.level then (reach, next) else (sd, next) := rfl

/-- An edge that leads to no new node. -/
theorem Visited.skip (visited : Visited old pairs sd next)
    (idle : ∀ m, old.depth.get m = none → leadsTo m (n, e) = false)
    : Visited old (pairs ++ [(n, e)]) sd next := by
  refine { visited with fresh := fun m => ?_, preds := fun m => ?_ }
  · rw [visited.fresh]
    refine and_congr_right fun missing => ?_
    simp [idle m missing]
  · rw [visited.preds]
    congr 1
    by_cases missing : old.depth.get m = none
    · simp [idle m missing]
    · rw [if_neg missing, if_neg missing]

theorem Visited.visit (bounded : ∀ m d, old.depth.get m = some d → d ≤ old.level)
    (visited : Visited old pairs sd next) (n : UInt64) (e : EdgeRef)
    : Visited old (pairs ++ [(n, e)]) (sd.visit n next e).1 (sd.visit n next e).2 := by
  rw [visit_eq]
  by_cases loop : farEnd n e = n
  · rw [if_pos loop]
    exact visited.skip fun m _ => by simp +contextual [leadsTo, loop]
  · rw [if_neg loop]
    cases before : old.depth.get (farEnd n e) with
    | some d =>
      -- an earlier layer reached the node
      have bound := bounded _ _ before
      have level := visited.level
      rw [visited.known _ _ before]
      simp only [show d ≠ sd.level by omega, if_false]
      refine visited.skip fun m missing => ?_
      have other : farEnd n e ≠ m := by
        rintro rfl
        cases missing.symm.trans before
      simp [leadsTo, other]
    | none =>
      have leads (m : UInt64) : leadsTo m (n, e) = true ↔ m = farEnd n e := by
        simp only [leadsTo, Bool.and_eq_true, decide_eq_true_eq]
        exact ⟨fun found => found.1.symm, fun same => ⟨same.symm, same ▸ loop⟩⟩
      have fresh (m : UInt64) : (old.depth.get m = none ∧ ∃ p ∈ pairs ++ [(n, e)], leadsTo m p = true)
          ↔ m ∈ next ∨ m = farEnd n e := by
        simp only [visited.fresh, mem_append, mem_singleton, or_and_right, exists_or, exists_eq_left,
          leads, and_or_left]
        refine or_congr_right (and_iff_right_of_imp ?_)
        rintro rfl
        exact before
      have preds (m : UInt64) : ((sd.preds.set (farEnd n e) (sd.predsOf (farEnd n e) ++ [⟨n, e⟩])).get m).getD []
          = old.predsOf m ++ if old.depth.get m = none
            then ((pairs ++ [(n, e)]).filter (leadsTo m)).map (fun p => ⟨p.1, p.2⟩) else [] := by
        have older := visited.preds m
        by_cases here : m = farEnd n e
        · subst here
          rw [if_pos before] at older
          simp [get_set, older, before, filter_append, (leads _).mpr rfl]
        · have passes : leadsTo m (n, e) = false := by simpa [← leads] using here
          have same : (pairs ++ [(n, e)]).filter (leadsTo m) = pairs.filter (leadsTo m) := by
            simp [filter_append, passes]
          rw [get_set, if_neg here, same]
          exact older
      rw [visited.reached _ before]
      by_cases again : farEnd n e ∈ next
      · simp only [again, if_true]
        refine { visited with fresh := fun m => ?_, preds := preds }
        rw [fresh]
        exact ⟨.inl, fun found => found.elim id (fun same => same ▸ again)⟩
      · simp only [again, if_false]
        refine { visited with known := ?_, reached := ?_, fresh := ?_, once := ?_, preds := preds }
        · intro m d found
          have other : m ≠ farEnd n e := by
            rintro rfl
            cases before.symm.trans found
          rw [get_set, if_neg other]
          exact visited.known m d found
        · intro m missing
          rw [get_set]
          by_cases here : m = farEnd n e
          · simp [here]
          · rw [if_neg here, visited.reached m missing]
            simp [here]
        · intro m
          rw [fresh, mem_append, mem_singleton]
        · exact nodup_snoc.mpr ⟨visited.once, again⟩

theorem Visited.visitAll (bounded : ∀ m d, old.depth.get m = some d → d ≤ old.level)
    (visited : Visited old pairs sd next) (more : List (UInt64 × EdgeRef))
    : Visited old (pairs ++ more) (BfsSide.visitAll (sd, next) more).1 (BfsSide.visitAll (sd, next) more).2 := by
  induction more generalizing pairs sd next with
  | nil => simpa [BfsSide.visitAll] using visited
  | cons p rest ih =>
    have later := ih (visited.visit bounded p.1 p.2)
    rwa [append_assoc] at later

theorem visit_directions (sd : BfsSide) (n : UInt64) (next : List UInt64) (e : EdgeRef)
    : (sd.visit n next e).1.out = sd.out ∧ (sd.visit n next e).1.inc = sd.inc := by
  rw [visit_eq]
  split
  · exact ⟨rfl, rfl⟩
  · split
    · exact ⟨rfl, rfl⟩
    · split <;> exact ⟨rfl, rfl⟩

theorem visitAll_directions (sd : BfsSide × List UInt64) (pairs : List (UInt64 × EdgeRef))
    : (BfsSide.visitAll sd pairs).1.out = sd.1.out ∧ (BfsSide.visitAll sd pairs).1.inc = sd.1.inc := by
  induction pairs generalizing sd with
  | nil => exact ⟨rfl, rfl⟩
  | cons p rest ih =>
    obtain ⟨out, inc⟩ := visit_directions sd.1 p.1 sd.2 p.2
    obtain ⟨out', inc'⟩ := ih (sd.1.visit p.1 sd.2 p.2)
    exact ⟨out'.trans out, inc'.trans inc⟩

theorem run_layer {s : Store} {spec : PathSpec} {out inc : Bool}
    (ran : ∀ n, (neighbors n out inc spec.types).run s = (.ok (edges n), s)) (nodes : List UInt64)
    (sd : BfsSide) (next : List UInt64) (outward : sd.out = out) (inward : sd.inc = inc)
    : (BfsSide.layer spec nodes sd next).run s
      = (.ok (BfsSide.visitAll (sd, next) (visits edges nodes)), s) := by
  induction nodes generalizing sd next with
  | nil => rfl
  | cons n rest ih =>
    have here : (edges n).foldl (fun (x : BfsSide × List UInt64) e => x.1.visit n x.2 e) (sd, next)
        = BfsSide.visitAll (sd, next) ((edges n).map (n, ·)) := by
      rw [BfsSide.visitAll, foldl_map]
    obtain ⟨out', inc'⟩ := visitAll_directions (sd, next) ((edges n).map (n, ·))
    rw [BfsSide.layer, outward, inward, bind_eq, run_bind_of_ok (ran n)]
    change (BfsSide.layer spec rest
      ((edges n).foldl (fun (x : BfsSide × List UInt64) e => x.1.visit n x.2 e) (sd, next)).1
      ((edges n).foldl (fun (x : BfsSide × List UInt64) e => x.1.visit n x.2 e) (sd, next)).2).run s = _
    rw [here, ih _ _ (out'.trans outward) (inc'.trans inward)]
    simp only [visits, flatMap_cons, BfsSide.visitAll, foldl_append]

end

/-- A side that knows the nodes up to distance `k` from its start, and how shortest walks enter them. -/
structure Knows (step : UInt64 → EdgeRef → UInt64 → Prop) (a : UInt64) (k : Nat) (sd : BfsSide) : Prop where
  level : sd.level = k
  depth : ∀ m d, sd.depth.get m = some d ↔ d ≤ k ∧ Far step a d m
  frontier : ∀ m, m ∈ sd.frontier ↔ Far step a k m
  once : sd.frontier.Nodup
  preds
    : ∀ m p, p ∈ sd.predsOf m
      ↔ ∃ d < k, Far step a d p.prev ∧ Far step a (d + 1) m ∧ step p.prev p.edge m
  predsOnce : ∀ m, (sd.predsOf m).Nodup

section

variable {s : Store} {types : List UInt32} {out inc : Bool} {a m n : UInt64} {k : Nat} {sd : BfsSide}
  {e : EdgeRef}

theorem knows_newSide (step : UInt64 → EdgeRef → UInt64 → Prop) (a : UInt64) (out inc : Bool)
    : Knows step a 0 (newSide a out inc) := by
  refine ⟨rfl, fun m d => ?_, fun m => ?_, nodup_singleton a, fun m p => ?_, fun m => ?_⟩
  · rw [newSide, get_set, get_empty, Nat.le_zero]
    constructor
    · intro found
      split at found
      next here =>
        obtain rfl := Option.some.inj found
        exact ⟨rfl, far_zero.mpr here.symm⟩
      next => cases found
    · rintro ⟨rfl, far⟩
      rw [if_pos (far_zero.mp far).symm]
  · rw [far_zero]
    exact mem_singleton.trans eq_comm
  · simp [newSide, BfsSide.predsOf]
  · simp [newSide, BfsSide.predsOf]

theorem Joins.farEnd (joins : Joins s types out inc n e m) : farEnd n e = m := by
  obtain ⟨_, _, ⟨_, rfl, rfl⟩ | ⟨_, rfl, rfl⟩⟩ := joins
  · exact if_pos rfl
  · rw [Graph.farEnd]
    split
    next same => exact same.symm
    next => rfl

/-- The edges that a layer visits on the way to `m`. -/
theorem visits_iff {nodes : List UInt64} (neighbored : ∀ n, Neighbored s types out inc n (edges n))
    : (n, e) ∈ visits edges nodes ∧ leadsTo m (n, e) = true
      ↔ n ∈ nodes ∧ Joins s types out inc n e m ∧ m ≠ n := by
  have listed : (n, e) ∈ visits edges nodes ↔ n ∈ nodes ∧ e ∈ edges n := by
    simp only [visits, mem_flatMap, mem_map, Prod.mk.injEq]
    constructor
    · rintro ⟨_, member, _, member', rfl, rfl⟩
      exact ⟨member, member'⟩
    · rintro ⟨member, member'⟩
      exact ⟨n, member, e, member', rfl, rfl⟩
  rw [listed, (neighbored n).mem]
  simp only [leadsTo, Bool.and_eq_true, decide_eq_true_eq]
  constructor
  · rintro ⟨⟨member, m', joins⟩, same, other⟩
    obtain rfl : m' = m := joins.farEnd.symm.trans same
    exact ⟨member, joins, other⟩
  · rintro ⟨member, joins, other⟩
    exact ⟨⟨member, m, joins⟩, joins.farEnd, other⟩

theorem visits_nodup {nodes : List UInt64} (once : nodes.Nodup)
    (neighbored : ∀ n, Neighbored s types out inc n (edges n)) (m : UInt64)
    : ((visits edges nodes).filter (leadsTo m)).Nodup := by
  rw [nodup_iff_count_eq_one]
  rintro ⟨n, e⟩ visited
  obtain ⟨listed, leads⟩ := mem_filter.mp visited
  obtain ⟨member, joins, other⟩ := (visits_iff neighbored).mp ⟨listed, leads⟩
  rw [count_filter leads, visits, count_flatMap_of (x := n), count_eq_one_of_mem once member, Nat.one_mul]
  · exact (count_map_of_injective _ _ (fun _ _ same => (Prod.mk.inj same).2) e).trans
      ((neighbored n).once e m joins other)
  · intro n' _ other
    refine count_eq_zero.mpr fun member => other ?_
    obtain ⟨_, _, same⟩ := mem_map.mp member
    exact (Prod.mk.inj same).1

theorem Knows.unknown {step : UInt64 → EdgeRef → UInt64 → Prop} (knows : Knows step a k sd)
    : sd.depth.get m = none ↔ ∀ d ≤ k, ¬ Far step a d m := by
  rw [Option.eq_none_iff_forall_ne_some]
  constructor
  · intro missing d within far
    exact missing d ((knows.depth m d).mpr ⟨within, far⟩)
  · intro missing d found
    obtain ⟨within, far⟩ := (knows.depth m d).mp found
    exact missing d within far

/-- The layer reaches the nodes that are one hop further away, by all their last hops. -/
theorem Knows.advance {next : List UInt64} {sd' : BfsSide}
    (knows : Knows (Joins s types out inc) a k sd)
    (neighbored : ∀ n, Neighbored s types out inc n (edges n))
    (visited : Visited sd (visits edges sd.frontier) sd' next)
    : Knows (Joins s types out inc) a (k + 1) { sd' with frontier := next } := by
  have level : sd'.level = k + 1 := by rw [visited.level, knows.level]
  -- a last hop to a node that is not known yet starts at distance `k`
  have hops (m : UInt64) (missing : sd.depth.get m = none) (p : UInt64 × EdgeRef)
      : p ∈ visits edges sd.frontier ∧ leadsTo m p = true
        ↔ Far (Joins s types out inc) a k p.1 ∧ Joins s types out inc p.1 p.2 m := by
    rw [visits_iff neighbored, knows.frontier]
    refine and_congr_right fun far => and_iff_left_of_imp ?_
    rintro _ rfl
    exact knows.unknown.mp missing k le_rfl far
  have fresh (m : UInt64) : m ∈ next ↔ Far (Joins s types out inc) a (k + 1) m := by
    rw [visited.fresh]
    constructor
    · rintro ⟨missing, p, found⟩
      obtain ⟨far, joins⟩ := (hops m missing p).mp found
      obtain ⟨d, short, here⟩ := far.hop joins
      obtain rfl | within : d = k + 1 ∨ d ≤ k := by omega
      · exact here
      · exact absurd here (knows.unknown.mp missing d within)
    · intro far
      have missing : sd.depth.get m = none := knows.unknown.mpr fun d within near => by
        have same := near.unique far
        omega
      obtain ⟨n, e, near, joins⟩ := far.before
      exact ⟨missing, (n, e), (hops m missing (n, e)).mpr ⟨near, joins⟩⟩
  have enter_known {m : UInt64} {d : Nat} (known : sd.depth.get m = some d) : sd'.predsOf m = sd.predsOf m := by
    rw [visited.preds, if_neg (by simp [known]), append_nil]
  have enter_new {m : UInt64} (missing : sd.depth.get m = none)
      : sd'.predsOf m = ((visits edges sd.frontier).filter (leadsTo m)).map
          (fun p => ⟨p.1, p.2⟩) := by
    have none' : sd.predsOf m = [] := eq_nil_iff_forall_not_mem.mpr fun p member => by
      obtain ⟨d, below, _, far, _⟩ := (knows.preds m p).mp member
      exact knows.unknown.mp missing (d + 1) below far
    rw [visited.preds, if_pos missing, none', nil_append]
  refine ⟨level, fun m d => ?_, fresh, visited.once, fun m p => ?_, fun m => ?_⟩
  · cases known : sd.depth.get m with
    | some d' =>
      obtain ⟨within, far⟩ := (knows.depth m d').mp known
      rw [visited.known m d' known]
      constructor
      · intro same
        obtain rfl := Option.some.inj same
        exact ⟨Nat.le_succ_of_le within, far⟩
      · rintro ⟨_, far'⟩
        rw [far.unique far']
    | none =>
      rw [visited.reached m known, level]
      constructor
      · intro found
        split at found
        next here =>
          obtain rfl := Option.some.inj found
          exact ⟨le_rfl, (fresh m).mp here⟩
        next => cases found
      · rintro ⟨within, far⟩
        obtain rfl | within : d = k + 1 ∨ d ≤ k := by omega
        · rw [if_pos ((fresh m).mpr far)]
        · exact absurd far (knows.unknown.mp known d within)
  · change p ∈ sd'.predsOf m ↔ _
    cases known : sd.depth.get m with
    | some d' =>
      rw [enter_known known, knows.preds]
      obtain ⟨within, far⟩ := (knows.depth m d').mp known
      refine exists_congr fun d => and_congr_left fun ⟨_, far', _⟩ => ?_
      have same := far.unique far'
      omega
    | none =>
      obtain ⟨prev, edge⟩ := p
      rw [enter_new known, mem_map]
      constructor
      · rintro ⟨p, found, same⟩
        obtain ⟨rfl, rfl⟩ := Pred.mk.inj same
        obtain ⟨near, joins⟩ := (hops m known p).mp (mem_filter.mp found)
        exact ⟨k, Nat.lt_succ_self k, near,
          (fresh m).mp ((visited.fresh m).mpr ⟨known, p, mem_filter.mp found⟩), joins⟩
      · rintro ⟨d, within, near, far, joins⟩
        obtain rfl | within : d = k ∨ d + 1 ≤ k := by omega
        · exact ⟨(prev, edge), mem_filter.mpr ((hops m known (prev, edge)).mpr ⟨near, joins⟩), rfl⟩
        · exact absurd far (knows.unknown.mp known (d + 1) within)
  · change (sd'.predsOf m).Nodup
    cases known : sd.depth.get m with
    | some d' =>
      rw [enter_known known]
      exact knows.predsOnce m
    | none =>
      rw [enter_new known]
      exact (visits_nodup knows.once neighbored m).map fun p p' same =>
        Prod.ext (Pred.mk.inj same).1 (Pred.mk.inj same).2

theorem run_expand {spec : PathSpec} (adjacent : Adjacent s) (free : DuplicateFree (spec.types.getD [0]))
    (knows : Knows (Joins s (spec.types.getD [0]) sd.out sd.inc) a k sd) (other : BfsSide)
    : ∃ sd', (sd.expand other spec).run s = (.ok (sd', meeting other sd'.frontier), s)
      ∧ Knows (Joins s (spec.types.getD [0]) sd.out sd.inc) a (k + 1) sd'
      ∧ sd'.out = sd.out ∧ sd'.inc = sd.inc := by
  choose edges ran neighbored using fun n => run_neighbors adjacent free n sd.out sd.inc
  have bounded (m : UInt64) (d : Nat) (found : sd.depth.get m = some d) : d ≤ sd.level := by
    rw [knows.level]
    exact ((knows.depth m d).mp found).1
  have visited := (Visited.start sd).visitAll bounded (visits edges sd.frontier)
  have layer := run_layer ran sd.frontier { sd with level := sd.level + 1 } [] rfl rfl
  rw [nil_append] at visited
  refine ⟨_, ?_, knows.advance neighbored visited, visited.out, visited.inc⟩
  rw [BfsSide.expand, bind_eq, run_bind_of_ok layer]
  rfl

variable {step : UInt64 → EdgeRef → UInt64 → Prop} {d : Nat}

/-- The hops that enter a known node. -/
theorem Knows.enter (knows : Knows step a k sd) (far : Far step a (d + 1) m) (within : d < k) (p : Pred)
    : p ∈ sd.predsOf m ↔ Far step a d p.prev ∧ step p.prev p.edge m := by
  rw [knows.preds]
  constructor
  · rintro ⟨d', _, near, far', taken⟩
    obtain rfl : d = d' := by
      have same := far.unique far'
      omega
    exact ⟨near, taken⟩
  · rintro ⟨near, taken⟩
    exact ⟨d, within, near, far, taken⟩

theorem Knows.enter_start (knows : Knows step a k sd) (far : Far step a 0 m) : sd.predsOf m = [] := by
  refine eq_nil_iff_forall_not_mem.mpr fun p member => ?_
  obtain ⟨d, _, _, far', _⟩ := (knows.preds m p).mp member
  have same := far.unique far'
  omega

theorem walks_succ (sd : BfsSide) (one : Bool) (depth : Nat) (m : UInt64)
    : walks sd one (depth + 1) m
      = if sd.predsOf m = [] then [⟨[m], []⟩]
        else (if one then (sd.predsOf m).take 1 else sd.predsOf m).flatMap (fun p =>
          (walks sd one depth p.prev).map (fun w => ⟨w.nodes ++ [m], w.rels ++ [p.edge]⟩)) := by
  rw [walks, BfsSide.predsOf]
  cases (sd.preds.get m).getD [] <;> simp

/-- The walks back to the start are the shortest ones, each once. -/
theorem Knows.walks_all (knows : Knows step a k sd) {depth : Nat} (far : Far step a d m) (within : d ≤ k)
    (enough : d ≤ depth)
    : ∃ l : List (List (EdgeRef × UInt64)), walks sd false depth m = l.map (pathOf a) ∧ AllWalks step a d m l := by
  induction depth generalizing m d with
  | zero =>
    obtain rfl : d = 0 := Nat.le_zero.mp enough
    obtain rfl := far_zero.mp far
    exact ⟨[[]], rfl, .nil step a⟩
  | succ depth ih =>
    rw [walks_succ]
    cases d with
    | zero =>
      rw [if_pos (knows.enter_start far)]
      obtain rfl := far_zero.mp far
      exact ⟨[[]], rfl, .nil step a⟩
    | succ d =>
      have enter := knows.enter far (by omega)
      obtain ⟨n, e, near, taken⟩ := far.before
      have some' : sd.predsOf m ≠ [] := ne_nil_of_mem ((enter ⟨n, e⟩).mpr ⟨near, taken⟩)
      have before (p : Pred) (member : p ∈ sd.predsOf m) :=
        ih ((enter p).mp member).1 (by omega) (by omega)
      choose! l found all using before
      refine ⟨(sd.predsOf m).flatMap (fun p => (l p).map (· ++ [(p.edge, m)])), ?_, ?_⟩
      · rw [if_neg some', if_neg Bool.false_ne_true, map_flatMap]
        refine flatMap_congr fun p member => ?_
        rw [found p member, map_map, map_map]
        exact map_congr_left fun hops _ => (pathOf_snoc a hops p.edge m).symm
      · refine AllWalks.snoc far (knows.predsOnce m) (fun p p' prev edge => ?_) (fun n e => ?_) all
        · cases p
          cases p'
          simp_all
        · constructor
          · rintro ⟨p, member, rfl, rfl⟩
            exact (enter p).mp member
          · exact fun found => ⟨⟨n, e⟩, (enter ⟨n, e⟩).mpr found, rfl, rfl⟩

theorem Knows.walks_one (knows : Knows step a k sd) {depth : Nat} (far : Far step a d m) (within : d ≤ k)
    (enough : d ≤ depth)
    : ∃ hops, walks sd true depth m = [pathOf a hops] ∧ Walk step a hops m ∧ hops.length = d := by
  induction depth generalizing m d with
  | zero =>
    obtain rfl : d = 0 := Nat.le_zero.mp enough
    exact ⟨[], by rw [far_zero.mp far]; rfl, far_zero.mp far, rfl⟩
  | succ depth ih =>
    rw [walks_succ]
    cases d with
    | zero =>
      rw [if_pos (knows.enter_start far)]
      exact ⟨[], by rw [far_zero.mp far]; rfl, far_zero.mp far, rfl⟩
    | succ d =>
      have enter := knows.enter far (by omega)
      obtain ⟨n, e, near, taken⟩ := far.before
      have some' : sd.predsOf m ≠ [] := ne_nil_of_mem ((enter ⟨n, e⟩).mpr ⟨near, taken⟩)
      obtain ⟨p, rest, entries⟩ := exists_cons_of_ne_nil some'
      obtain ⟨near, taken⟩ := (enter p).mp (entries ▸ mem_cons_self)
      obtain ⟨hops, found, walk, length⟩ := ih near (by omega) (by omega)
      refine ⟨hops ++ [(p.edge, m)], ?_, walk_snoc.mpr ⟨p.prev, walk, taken, rfl⟩, by simp [length]⟩
      rw [if_neg some', if_pos rfl, entries, pathOf_snoc]
      simp [found]

end

section

variable {step : UInt64 → EdgeRef → UInt64 → Prop} {src dst : UInt64} {j k : Nat} {fwd bwd : BfsSide}
  {meet : List UInt64}

/-- Where the sides meet the shortest paths are joined, each once. -/
theorem joinPaths_all (forth : Knows step src j fwd) (back' : Knows (fun x e y => step y e x) dst k bwd)
    (far : Far step src (j + k) dst) (once : meet.Nodup)
    (mid : ∀ m, m ∈ meet ↔ Far step src j m ∧ Far step m k dst)
    : ∃ l : List (List (EdgeRef × UInt64)), joinPaths fwd bwd meet true = l.map (pathOf src)
      ∧ AllWalks step src (j + k) dst l := by
  have heads (m : UInt64) (member : m ∈ meet) :=
    forth.walks_all ((mid m).mp member).1 le_rfl forth.level.ge
  have tails (m : UInt64) (member : m ∈ meet) :=
    back'.walks_all ((mid m).mp member).2.reverse le_rfl back'.level.ge
  choose! l found left using heads
  choose! r found' right using tails
  refine ⟨_, ?_, AllWalks.join far once mid left right⟩
  rw [joinPaths, if_pos rfl, map_flatMap]
  refine flatMap_congr fun m member => ?_
  rw [Bool.not_true, found m member, found' m member, map_flatMap, flatMap_map]
  refine flatMap_congr fun h _ => ?_
  rw [map_map, map_map]
  exact map_congr_left fun t _ => concat_pathOf src dst h t

theorem joinPaths_one (forth : Knows step src j fwd) (back' : Knows (fun x e y => step y e x) dst k bwd)
    (some' : meet ≠ []) (mid : ∀ m ∈ meet, Far step src j m ∧ Far step m k dst)
    : ∃ hops, joinPaths fwd bwd meet false = [pathOf src hops] ∧ Walk step src hops dst
      ∧ hops.length = j + k := by
  obtain ⟨m, rest, rfl⟩ := exists_cons_of_ne_nil some'
  obtain ⟨near, rest'⟩ := mid m mem_cons_self
  obtain ⟨h, found, walk, length⟩ := forth.walks_one near le_rfl forth.level.ge
  obtain ⟨t, found', walk', length'⟩ := back'.walks_one rest'.reverse le_rfl back'.level.ge
  refine ⟨h ++ back dst t, ?_, walk_append.mpr ⟨m, walk, walk'.back⟩, by simp [length, length']⟩
  simp [joinPaths, found, found', concat_pathOf]

/-- The new nodes that the other side knows, when it knows them all at one distance. -/
theorem meeting_eq {other : BfsSide} {next : List UInt64}
    (level : ∀ m ∈ next, ∀ d, other.depth.get m = some d → d = k)
    : meeting other next = next.filter (fun m => (other.depth.get m).isSome) := by
  have reached : next.filterMap (fun m => (other.depth.get m).map (m, ·))
      = (next.filter (fun m => (other.depth.get m).isSome)).map (·, k) := by
    induction next with
    | nil => rfl
    | cons m rest ih =>
      have later := ih fun m member => level m (mem_cons_of_mem _ member)
      cases known : other.depth.get m with
      | none => simpa [known] using later
      | some d =>
        obtain rfl := level m mem_cons_self d known
        simpa [known] using later
  rw [meeting, reached]
  generalize next.filter (fun m => (other.depth.get m).isSome) = l
  cases l with
  | nil => rfl
  | cons m rest =>
    have least : (((m :: rest).map (·, k)).map Prod.snd).min? = some k := by
      rw [map_map]
      have same : (m :: rest).map (Prod.snd ∘ (·, k)) = List.replicate (rest.length + 1) k :=
        map_const'
      rw [same, min?_replicate_of_pos (Nat.succ_pos _)]
    simp only [least]
    rw [filter_eq_self.mpr (by simp), map_map]
    exact map_id (m :: rest)

/-- One side has advanced to the layer `j + 1`, the other one is at `k`, and they had no node in common
before. Then they meet in the middle of the shortest paths, or still have no node in common.
-/
theorem meeting_spec (forth : Knows step src (j + 1) fwd) (back' : Knows (fun x e y => step y e x) dst k bwd)
    (disjoint : ∀ m i l, i ≤ j → l ≤ k → Far step src i m → Far step m l dst → False)
    : (meeting bwd fwd.frontier).Nodup
      ∧ (∀ m, m ∈ meeting bwd fwd.frontier ↔ Far step src (j + 1) m ∧ Far step m k dst)
      ∧ (meeting bwd fwd.frontier ≠ [] → Far step src (j + 1 + k) dst)
      ∧ (meeting bwd fwd.frontier = []
        → ∀ m i l, i ≤ j + 1 → l ≤ k → Far step src i m → Far step m l dst → False) := by
  have level (m : UInt64) (member : m ∈ fwd.frontier) (d : Nat) (known : bwd.depth.get m = some d) : d = k := by
    obtain ⟨first, walk, length⟩ := ((forth.frontier m).mp member).reached
    obtain ⟨within, far⟩ := (back'.depth m d).mp known
    obtain ⟨second, walk', length'⟩ := far.reverse.reached
    have long := apart disjoint (walk_append.mpr ⟨m, walk, walk'⟩)
    rw [length_append] at long
    omega
  have mid (m : UInt64) : m ∈ meeting bwd fwd.frontier ↔ Far step src (j + 1) m ∧ Far step m k dst := by
    rw [meeting_eq level, mem_filter, forth.frontier, Option.isSome_iff_exists]
    refine and_congr_right fun near => ⟨?_, fun rest => ⟨k, (back'.depth m k).mpr ⟨le_rfl, rest.reverse⟩⟩⟩
    rintro ⟨d, known⟩
    obtain rfl := level m ((forth.frontier m).mpr near) d known
    exact ((back'.depth m d).mp known).2.reverse
  refine ⟨?_, mid, fun some' => ?_, fun none' m i l within within' near rest => ?_⟩
  · rw [meeting_eq level]
    exact forth.once.filter _
  · obtain ⟨m, member⟩ := exists_mem_of_ne_nil _ some'
    obtain ⟨near, rest⟩ := (mid m).mp member
    obtain ⟨first, walk, length⟩ := near.reached
    obtain ⟨second, walk', length'⟩ := rest.reached
    refine ⟨⟨first ++ second, walk_append.mpr ⟨m, walk, walk'⟩, by simp [length, length']⟩, fun hops path => ?_⟩
    have long := apart disjoint path
    omega
  · obtain within | rfl : i ≤ j ∨ i = j + 1 := by omega
    · exact disjoint m i l within within' near rest
    · have known : bwd.depth.get m = some l := (back'.depth m l).mpr ⟨within', rest.reverse⟩
      have member : m ∈ meeting bwd fwd.frontier := by
        rw [meeting_eq level, mem_filter]
        exact ⟨(forth.frontier m).mpr near, by simp [known]⟩
      rw [none'] at member
      cases member

end

/-- The steps that a search may take. -/
abbrev PathSpec.Step (spec : PathSpec) (s : Store) : UInt64 → EdgeRef → UInt64 → Prop :=
  Joins s (spec.types.getD [0]) spec.out spec.inc

/-- A path of minimal length, within the bound on the hops. A negative bound stands for none. -/
def Shortest (s : Store) (spec : PathSpec) (src dst : UInt64) (p : Path) : Prop :=
  ∃ hops, p = pathOf src hops ∧ Walk (spec.Step s) src hops dst
    ∧ (∀ hops', Walk (spec.Step s) src hops' dst → hops.length ≤ hops'.length)
    ∧ (spec.maxHops < 0 ∨ hops.length ≤ spec.maxHops)

/-- All shortest paths, each once; or, unless all are asked for, one if there is one. -/
def Finds (s : Store) (spec : PathSpec) (src dst : UInt64) (paths : List Path) : Prop :=
  if spec.all then paths.Nodup ∧ ∀ p, p ∈ paths ↔ Shortest s spec src dst p
  else (∃ p, paths = [p] ∧ Shortest s spec src dst p) ∨ (paths = [] ∧ ∀ p, ¬ Shortest s spec src dst p)

section

variable {s : Store} {spec : PathSpec} {src dst : UInt64} {j k : Nat} {fwd bwd : BfsSide} {meet : List UInt64}

theorem finds_nil (none' : ∀ p, ¬ Shortest s spec src dst p) : Finds s spec src dst [] := by
  rw [Finds]
  split
  · exact ⟨nodup_nil, fun p => ⟨fun member => (nomatch member), fun found => absurd found (none' p)⟩⟩
  · exact .inr ⟨rfl, none'⟩

theorem finds_joinPaths (forth : Knows (spec.Step s) src j fwd)
    (back' : Knows (fun x e y => spec.Step s y e x) dst k bwd) (far : Far (spec.Step s) src (j + k) dst)
    (once : meet.Nodup) (mid : ∀ m, m ∈ meet ↔ Far (spec.Step s) src j m ∧ Far (spec.Step s) m k dst)
    (some' : meet ≠ []) (bound : spec.maxHops < 0 ∨ ((j + k : Nat) : Int) ≤ spec.maxHops)
    : Finds s spec src dst (joinPaths fwd bwd meet spec.all) := by
  have shortest {hops : List (EdgeRef × UInt64)} (walk : Walk (spec.Step s) src hops dst)
      (length : hops.length = j + k)
      : Shortest s spec src dst (pathOf src hops) :=
    ⟨hops, rfl, walk, fun _ walk' => length ▸ far.least _ walk', length ▸ bound⟩
  rw [Finds]
  cases spec.all with
  | true =>
    obtain ⟨l, found, all⟩ := joinPaths_all forth back' far once mid
    rw [if_pos rfl, found]
    refine ⟨all.once.map (pathOf_injective src), fun p => ?_⟩
    rw [mem_map]
    constructor
    · rintro ⟨hops, member, rfl⟩
      obtain ⟨walk, length⟩ := (all.mem hops).mp member
      exact shortest walk length
    · rintro ⟨hops, rfl, walk, least, _⟩
      obtain ⟨hops', walk', length⟩ := far.reached
      refine ⟨hops, (all.mem hops).mpr ⟨walk, le_antisymm ?_ (far.least _ walk)⟩, rfl⟩
      exact length ▸ least _ walk'
  | false =>
    obtain ⟨hops, found, walk, length⟩ :=
      joinPaths_one forth back' some' fun m member => (mid m).mp member
    rw [if_neg Bool.false_ne_true, found]
    exact .inl ⟨_, rfl, shortest walk length⟩

/-- A side without a frontier has seen all there is. -/
theorem not_shortest_of_exhausted
    (disjoint : ∀ m i l, i ≤ j → l ≤ k → Far (spec.Step s) src i m → Far (spec.Step s) m l dst → False)
    (exhausted : (∀ m, ¬ Far (spec.Step s) src j m) ∨ (∀ m, ¬ Far (spec.Step s) m k dst)) (p : Path)
    : ¬ Shortest s spec src dst p := by
  rintro ⟨hops, _, walk, _⟩
  obtain ⟨d, _, far⟩ := walk.far
  obtain ⟨shortest, path, rfl⟩ := far.reached
  have long := apart disjoint path
  obtain forward | backward := exhausted
  · obtain ⟨m, near, _⟩ := far.between (i := j) (by omega)
    exact forward m near
  · obtain ⟨m, _, rest⟩ := far.between (i := shortest.length - k) (by omega)
    rw [Nat.sub_sub_self (by omega)] at rest
    exact backward m rest

/-- A side with a frontier has not advanced as often as there are IDs. -/
theorem Knows.level_lt {step : UInt64 → EdgeRef → UInt64 → Prop} {a : UInt64} {sd : BfsSide}
    (knows : Knows step a j sd) (some' : sd.frontier.isEmpty = false)
    : j < 2 ^ 64 := by
  obtain ⟨m, member⟩ := List.exists_mem_of_ne_nil sd.frontier (by simpa using some')
  have numbered : Function.Injective UInt64.toFin := fun _ _ same => UInt64.toFin_inj.mp same
  exact ((knows.frontier m).mp member).lt_of_numbered numbered

/-- The search loop ends. Neither side can advance more often than there are IDs, so the rounds are
never used up.
-/
theorem run_search (adjacent : Adjacent s) (free : DuplicateFree (spec.types.getD [0]))
    (bounded : spec.maxHops ≠ 0) (fuel : Nat) (enough : 2 * 2 ^ 64 ≤ fuel + j + k)
    (short : j + k < 2 * 2 ^ 64)
    (forth : Knows (spec.Step s) src j fwd) (back' : Knows (fun x e y => spec.Step s y e x) dst k bwd)
    (outward : fwd.out = spec.out ∧ fwd.inc = spec.inc) (inward : bwd.out = spec.inc ∧ bwd.inc = spec.out)
    (disjoint : ∀ m i l, i ≤ j → l ≤ k → Far (spec.Step s) src i m → Far (spec.Step s) m l dst → False)
    : ∃ paths, (search spec fuel fwd bwd).run s = (.ok paths, s) ∧ Finds s spec src dst paths := by
  induction fuel generalizing j k fwd bwd with
  | zero => omega
  | succ fuel ih =>
    rw [search]
    by_cases stopped : (fwd.frontier.isEmpty || bwd.frontier.isEmpty) = true
    · rw [if_pos stopped]
      refine ⟨[], rfl, finds_nil (not_shortest_of_exhausted disjoint ?_)⟩
      obtain forward | backward := Bool.or_eq_true_iff.mp stopped
      · refine .inl fun m near => ?_
        have member := (forth.frontier m).mpr near
        rw [List.isEmpty_iff.mp forward] at member
        cases member
      · refine .inr fun m rest => ?_
        have member := (back'.frontier m).mpr rest.reverse
        rw [List.isEmpty_iff.mp backward] at member
        cases member
    rw [if_neg stopped]
    rw [Bool.or_eq_true, not_or, Bool.not_eq_true, Bool.not_eq_true] at stopped
    have below := forth.level_lt stopped.1
    have below' := back'.level_lt stopped.2
    by_cases past : (0 < spec.maxHops && spec.maxHops < fwd.level + bwd.level + 1) = true
    · rw [if_pos past]
      refine ⟨[], rfl, finds_nil ?_⟩
      rintro p ⟨hops, _, walk, _, within⟩
      have long := apart disjoint walk
      simp only [Bool.and_eq_true, decide_eq_true_eq, forth.level, back'.level] at past
      omega
    rw [if_neg past]
    have within : spec.maxHops < 0 ∨ (j + k + 1 : Int) ≤ spec.maxHops := by
      simp only [Bool.and_eq_true, decide_eq_true_eq, forth.level, back'.level, not_and, not_lt] at past
      omega
    by_cases smaller : bwd.frontier.length < fwd.frontier.length
    · rw [if_pos smaller]
      have knows : Knows (Joins s (spec.types.getD [0]) bwd.out bwd.inc) dst k bwd := by
        rw [inward.1, inward.2, ← step_reverse]
        exact back'
      obtain ⟨bwd', ran, knows', out', inc'⟩ := run_expand adjacent free knows fwd
      have back'' : Knows (fun x e y => spec.Step s y e x) dst (k + 1) bwd' := by
        rw [inward.1, inward.2, ← step_reverse] at knows'
        exact knows'
      obtain ⟨once, mid, meets, misses⟩ := meeting_spec back'' forth
        (fun m i l low low' near rest => disjoint m l i low' low rest.reverse near.reverse)
      rw [bind_eq, run_bind_of_ok ran]
      change ∃ paths, (if (meeting fwd bwd'.frontier).isEmpty = true then search spec fuel fwd bwd'
        else Program.ret (joinPaths fwd bwd' (meeting fwd bwd'.frontier) spec.all)).run s = _ ∧ _
      by_cases none' : meeting fwd bwd'.frontier = []
      · rw [if_pos (List.isEmpty_iff.mpr none')]
        exact ih (by omega) (by omega) forth back'' outward ⟨out'.trans inward.1, inc'.trans inward.2⟩
          (fun m i l low low' near rest => misses none' m l i low' low rest.reverse near.reverse)
      · rw [if_neg (by simpa using none')]
        have far := (meets none').reverse
        rw [Nat.add_comm] at far
        refine ⟨_, rfl, finds_joinPaths forth back'' far once (fun m => ?_) none' (by push_cast; omega)⟩
        rw [mid, and_comm]
        exact and_congr ⟨Far.reverse, Far.reverse⟩ ⟨Far.reverse, Far.reverse⟩
    · rw [if_neg smaller]
      have knows : Knows (Joins s (spec.types.getD [0]) fwd.out fwd.inc) src j fwd := by
        rwa [outward.1, outward.2]
      obtain ⟨fwd', ran, knows', out', inc'⟩ := run_expand adjacent free knows bwd
      have forth' : Knows (spec.Step s) src (j + 1) fwd' := by
        rwa [outward.1, outward.2] at knows'
      obtain ⟨once, mid, meets, misses⟩ := meeting_spec forth' back' disjoint
      rw [bind_eq, run_bind_of_ok ran]
      change ∃ paths, (if (meeting bwd fwd'.frontier).isEmpty = true then search spec fuel fwd' bwd
        else Program.ret (joinPaths fwd' bwd (meeting bwd fwd'.frontier) spec.all)).run s = _ ∧ _
      by_cases none' : meeting bwd fwd'.frontier = []
      · rw [if_pos (List.isEmpty_iff.mpr none')]
        exact ih (by omega) (by omega) forth' back' ⟨out'.trans outward.1, inc'.trans outward.2⟩ inward (misses none')
      · rw [if_neg (by simpa using none')]
        exact ⟨_, rfl, finds_joinPaths forth' back' (meets none') once mid none' (by push_cast; omega)⟩

theorem Finds.shortest {paths : List Path} (finds : Finds s spec src dst paths) {p : Path} (member : p ∈ paths)
    : Shortest s spec src dst p := by
  rw [Finds] at finds
  split at finds
  · exact (finds.2 p).mp member
  · obtain ⟨p', rfl, shortest⟩ | ⟨rfl, _⟩ := finds
    · exact mem_singleton.mp member ▸ shortest
    · cases member

theorem onRecord_of_walk {a b : UInt64} {hops : List (EdgeRef × UInt64)} (walk : Walk (spec.Step s) a hops b)
    {ref : EdgeRef} (member : ref ∈ hops.map Prod.fst)
    : OnRecord s ref := by
  induction hops generalizing a with
  | nil => cases member
  | cons hop rest ih =>
    obtain rfl | later := mem_cons.mp member
    · exact walk.1.1
    · exact ih walk.2 later

/-- No relationship occurs twice on a shortest path. -/
theorem Shortest.rels_nodup {p : Path} (shortest : Shortest s spec src dst p)
    : ∃ hops, p = pathOf src hops ∧ Walk (spec.Step s) src hops dst ∧ (p.rels.map EdgeRef.id).Nodup := by
  obtain ⟨hops, rfl, walk, least, _⟩ := shortest
  have far : Far (spec.Step s) src hops.length dst := ⟨⟨hops, walk, rfl⟩, least⟩
  have ends (x : UInt64) (ref : EdgeRef) (y x' y' : UInt64) (left : spec.Step s x ref y)
      (right : spec.Step s x' ref y') : x = x' ∨ x = y' := joins_ends left right
  have once := far.labels_nodup ends walk rfl
  refine ⟨hops, rfl, walk, List.Nodup.map_on ?_ once⟩
  exact fun _ member _ member' same => (onRecord_of_walk walk member).unique (onRecord_of_walk walk member') same

/-- Nothing is found between different nodes without a hop or without a type to follow. -/
theorem not_shortest_of_barred (other : src ≠ dst) (barred : spec.maxHops = 0 ∨ spec.types = some []) (p : Path)
    : ¬ Shortest s spec src dst p := by
  rintro ⟨hops, _, walk, _, within⟩
  cases hops with
  | nil => exact other walk
  | cons hop rest =>
    obtain none' | typeless := barred
    · rw [length_cons] at within
      omega
    · obtain ⟨⟨_, ⟨t, member, _⟩, _⟩, _⟩ := walk
      rw [typeless] at member
      cases member

/-- The search ends and finds exactly the shortest paths. On each of them the relationships join the
nodes in turn, and none occurs twice.
-/
theorem shortestPaths_exact (adjacent : Adjacent s) (src dst : UInt64) (spec : PathSpec)
    (free : ∀ types, spec.types = some types → DuplicateFree types)
    : ∃ paths, (shortestPaths src dst spec).run s = (.ok paths, s)
      ∧ (src = dst → paths = if spec.minHops = 0 then [⟨[src], []⟩] else [])
      ∧ (src ≠ dst → Finds s spec src dst paths)
      ∧ ∀ p ∈ paths, ∃ hops, p = pathOf src hops ∧ Walk (spec.Step s) src hops dst
        ∧ (p.rels.map EdgeRef.id).Nodup := by
  have free : DuplicateFree (spec.types.getD [0]) := by
    cases listed : spec.types with
    | none => exact ⟨List.nodup_singleton 0, fun _ => rfl⟩
    | some types => exact free types listed
  by_cases same : src = dst
  · refine ⟨if spec.minHops = 0 then [⟨[src], []⟩] else [], ?_, fun _ => rfl, absurd same, fun p member => ?_⟩
    · rw [shortestPaths, if_pos same]
      rfl
    · split at member
      next =>
        obtain rfl := List.mem_singleton.mp member
        exact ⟨[], rfl, same, List.nodup_nil⟩
      next => cases member
  · obtain ⟨paths, ran, finds⟩
        : ∃ paths, (shortestPaths src dst spec).run s = (.ok paths, s) ∧ Finds s spec src dst paths := by
      rw [shortestPaths, if_neg same]
      by_cases barred : (spec.maxHops = 0 || spec.types = some []) = true
      · rw [if_pos barred]
        exact ⟨[], rfl, finds_nil (not_shortest_of_barred same (by simpa using barred))⟩
      · rw [if_neg barred]
        refine run_search adjacent free (fun zero => barred (by simp [zero])) _ (by omega) (by omega)
          (knows_newSide _ src _ _) (knows_newSide _ dst _ _) ⟨rfl, rfl⟩ ⟨rfl, rfl⟩ ?_
        intro m i l low low' near rest
        obtain rfl : i = 0 := Nat.le_zero.mp low
        obtain rfl : l = 0 := Nat.le_zero.mp low'
        exact same ((far_zero.mp near).trans (far_zero.mp rest))
    exact ⟨paths, ran, fun equal => absurd equal same, fun _ => finds,
      fun p member => (finds.shortest member).rels_nodup⟩

end

/-- Two nodes with two relationships of one type between them. -/
def parallel : Script :=
  [(.createNode [] noProps, steady), (.createNode [] noProps, steady),
    (.createEdge (lit "T") 1 2 noProps, steady), (.createEdge (lit "T") 1 2 noProps, steady)]

theorem adjacent_parallel : Adjacent ((script parallel).run .empty).2 := by
  have plain (key : Str) (v : Val) (held : noProps.1.get key = some v) : False := by cases held
  have guarded : Guarded (fun _ => Op.Plain) .empty parallel :=
    ⟨fun key v held => (plain key v held).elim, fun _ _ _ => ⟨fun key v held => (plain key v held).elim,
      fun _ _ _ => ⟨fun key v held => (plain key v held).elim, fun _ _ _ =>
        ⟨fun key v held => (plain key v held).elim, fun _ _ _ => trivial⟩⟩⟩⟩
  have ran : (script parallel).run .empty
      = (.ok [.node 1, .node 2, .edge 1, .edge 2], ((script parallel).run .empty).2) := rfl
  have reached : Reached (fun _ => Op.Plain) _ _ := .commit .empty guarded ran
  exact (reached.sound Op.Plain.respects ⟨by decide, by decide⟩).2.adjacent

theorem shortestPaths_parallel
    : let s := ((script parallel).run .empty).2
      let spec : PathSpec := ⟨true, false, some [1], 1, -1, true⟩
      Adjacent s ∧ DuplicateFree [1]
        ∧ ∃ paths, (shortestPaths 1 2 spec).run s = (.ok paths, s)
          ∧ ((1 : UInt64) = 2 → paths = if spec.minHops = 0 then [⟨[1], []⟩] else [])
          ∧ ((1 : UInt64) ≠ 2 → Finds s spec 1 2 paths)
          ∧ ∀ p ∈ paths, ∃ hops, p = pathOf 1 hops ∧ Walk (spec.Step s) 1 hops 2
            ∧ (p.rels.map EdgeRef.id).Nodup := by
  intro s spec
  have free : DuplicateFree [1] := ⟨List.nodup_singleton 1, by decide⟩
  refine ⟨adjacent_parallel, free, shortestPaths_exact adjacent_parallel 1 2 spec ?_⟩
  intro types listed
  obtain rfl := Option.some.inj listed
  exact free

end Intreccio.Graph
