import Intreccio.Graph.EqualityLookups

/-! Range scans (`internal/graph/traversal.go`). The bands of a range hold every value that the
range accepts, and the cursor over them returns the owners of these values, each once.
-/

namespace Intreccio.Graph

open Kv Kv.Program Words Codec Binary64 List

variable {s : Store} {l k : UInt32}

/-- Calling `Next` until the end of a scan returns these nodes. -/
inductive Yields (s : Store) : NodeCursor → List Node → Prop
  | ended {cur cur' : NodeCursor} (last : cur.next.run s = (.ok (none, cur'), s))
    : Yields s cur []
  | node {cur cur' : NodeCursor} {n : Node} {rest : List Node}
    (first : cur.next.run s = (.ok (some n, cur'), s)) (more : Yields s cur' rest)
    : Yields s cur (n :: rest)

/-- Only what the next call returns matters. -/
theorem Yields.of_next {cur cur' : NodeCursor} {nodes : List Node} (same : cur.next = cur'.next)
    (yields : Yields s cur' nodes)
    : Yields s cur nodes := by
  cases yields with
  | ended last => exact .ended (same ▸ last)
  | node first more => exact .node (same ▸ first) more

/-- The values and owners that a stretch returns: those before the first value that stops it. -/
def RangeSegment.listed (seg : RangeSegment) : List (Scalar × UInt64) :=
  (seg.rest.filterMap (fun e => (parsePropKey e.1).toOption)).takeWhile (fun x => !seg.stop x.1)

section Segments

variable {stop : Scalar → Bool} {rest : List (Bytes × Bytes)} {more : List RangeSegment}
  {key b : Bytes} {c : Scalar} {n : UInt64}

theorem nextInRange_empty : nextInRange (⟨[], stop⟩ :: more) = nextInRange more := by
  rw [nextInRange]

theorem nextInRange_stops (parsed : parsePropKey key = .ok (c, n)) (stops : stop c = true)
    : nextInRange (⟨(key, b) :: rest, stop⟩ :: more) = nextInRange more := by
  rw [nextInRange, parsed]
  change (if stop c = true then nextInRange more else _) = _
  rw [if_pos stops]

theorem run_nextInRange {r : NodeRecord} (parsed : parsePropKey key = .ok (c, n))
    (goes : ¬ stop c = true) (record : nodeAt s n = some r)
    : (nextInRange (⟨(key, b) :: rest, stop⟩ :: more)).run s
      = (.ok (some ⟨r, n⟩, ⟨rest, stop⟩ :: more), s) := by
  rw [nextInRange, parsed]
  change (if stop c = true then nextInRange more else _).run s = _
  rw [if_neg goes]
  exact run_bind_of_ok (run_getNode_of record)

end Segments

/-- The scan goes through its stretches in order, and reads the record of each owner. -/
theorem yields_segments (segs : List RangeSegment)
    (records : ∀ seg ∈ segs, ∀ e ∈ seg.rest, ∃ c n r, parsePropKey e.1 = .ok (c, n)
      ∧ nodeAt s n = some r)
    : ∃ nodes, Yields s (.ranges segs) nodes
      ∧ nodes.map Node.id = segs.flatMap (fun seg => seg.listed.map Prod.snd)
      ∧ ∀ node ∈ nodes, nodeAt s node.id = some node.toNodeRecord := by
  induction segs with
  | nil => exact ⟨[], .ended rfl, rfl, by simp⟩
  | cons seg more ih =>
    obtain ⟨rest, stop⟩ := seg
    obtain ⟨others, yields, ids, found⟩ := ih (fun seg member => records seg (by simp [member]))
    replace records := records ⟨rest, stop⟩ (by simp)
    have leave {entries : List (Bytes × Bytes)}
        (same : nextInRange (⟨entries, stop⟩ :: more) = nextInRange more)
        : Yields s (.ranges (⟨entries, stop⟩ :: more)) others :=
      yields.of_next (by rw [NodeCursor.next, NodeCursor.next, same])
    induction rest with
    | nil => exact ⟨others, leave nextInRange_empty, ids, found⟩
    | cons e rest inner =>
      obtain ⟨key, b⟩ := e
      obtain ⟨c, n, r, parsed, record⟩ := records (key, b) (by simp)
      have entry : (parsePropKey key).toOption = some (c, n) := by
        rw [parsed]
        rfl
      by_cases stops : stop c = true
      · refine ⟨others, leave (nextInRange_stops parsed stops), ?_, found⟩
        simp [ids, RangeSegment.listed, entry, stops]
      · obtain ⟨nodes, continues, ids', found'⟩ :=
          inner (fun e member => records e (by simp [mem_cons_of_mem _ member]))
        refine ⟨⟨r, n⟩ :: nodes, .node ?_ continues, ?_, ?_⟩
        · exact run_bind_of_ok (run_nextInRange parsed stops record)
        · simpa [RangeSegment.listed, entry, stops] using ids'
        · intro node member
          rcases mem_cons.mp member with rfl | later
          · exact record
          · exact found' node later

theorem prop_bytes (l k : UInt32) (c : Scalar) (n : UInt64)
    : (Key.prop l k c n).bytes = propIndexPrefix l k ++ (scalarBytes c ++ uint64Bytes n) := by
  simp [Key.bytes, Key.tag, Key.body, propIndexPrefix]

theorem prop_bytes_lt {c d : Scalar} (n m : UInt64) (below : scalarBytes c < scalarBytes d)
    : (Key.prop l k c n).bytes < (Key.prop l k d m).bytes := by
  have differ : c ≠ d := by
    rintro rfl
    exact lt_irrefl _ below
  rw [prop_bytes, prop_bytes, append_lt_append_left, scalarBytes_append_lt differ]
  exact below

/-- The keys of a value start below those of every value that is not smaller. -/
theorem value_le_prop {b c : Scalar} (n : UInt64) (low : scalarBytes b ≤ scalarBytes c)
    : propIndexPrefix l k ++ scalarBytes b ≤ (Key.prop l k c n).bytes := by
  rcases low.lt_or_eq with below | same
  · refine le_trans ?_ (prop_bytes_lt n n below).le
    exact stem_le (under_propValue.mpr ⟨n, rfl⟩)
  · obtain rfl := scalarBytes_inj.mp same
    exact stem_le (under_propValue.mpr ⟨n, rfl⟩)

/-- The stretch belongs to the index, and every accepted value lies on it, before the values that
end it.
-/
structure Covers (l k : UInt32) (p : BandPlan) (accept : Scalar → Prop) : Prop where
  inside : propIndexPrefix l k <+: p.stem
  reaches
    : ∀ c n, accept c
        → under p.stem (Key.prop l k c n).bytes = true ∧ p.start ≤ (Key.prop l k c n).bytes
  stops
    : ∀ c d m, accept c → under p.stem (Key.prop l k d m).bytes = true → p.stop d = true
        → scalarBytes c < scalarBytes d

def BandPlan.segment (s : Store) (p : BandPlan) : RangeSegment :=
  ⟨s.select (fun key => under p.stem key && decide (p.start ≤ key)), p.stop⟩

variable {p : BandPlan}

theorem mem_segment {key b : Bytes}
    : (key, b) ∈ (p.segment s).rest ↔ s.get key = some b ∧ under p.stem key = true ∧ p.start ≤ key := by
  simp [BandPlan.segment]

theorem run_openBands (bands : List BandPlan)
    : (openBands bands).run s = (.ok (bands.map (BandPlan.segment s)), s) := by
  induction bands with
  | nil => rfl
  | cons p rest ih =>
    have found : (scanFrom p.stem p.start).run s = (.ok (p.segment s).rest, s) := rfl
    simp only [openBands, bind_eq, pure_eq]
    rw [run_bind_of_ok found, run_bind_of_ok ih]
    rfl

/-- What stands below a stem of the index are keys of the values that nodes carry. -/
theorem entry_of_stem (consistent : IndexConsistent s) {stem key : Bytes} {b : Bytes}
    (inside : propIndexPrefix l k <+: stem) (held : s.get key = some b) (below : under stem key = true)
    : ∃ c n, key = (Key.prop l k c n).bytes ∧ Carries s n l k c := by
  obtain ⟨more, rfl⟩ := inside
  have first : key.head? = some KeyProp := by
    obtain ⟨rest, rfl⟩ := isPrefixOf_iff_prefix.mp below
    rfl
  have stored : Stored s KeyProp key := ⟨by simp [held], first⟩
  obtain ⟨l', k', n, r, v, indexed, found, member, value, indexable, made⟩ :=
    (consistent.props key).mp stored
  obtain ⟨c, rfl⟩ := isIndexable_iff.mp indexable
  rw [Key.propKey_eq, Except.ok.injEq] at made
  subst made
  obtain ⟨c', n', same, _⟩ := under_propIndex.mp below
  cases same
  exact ⟨c, n, rfl, r, found, member, value⟩

/-- In a sorted list, what precedes every stopping element is taken. -/
theorem mem_takeWhile_of_sorted {α : Type} {r : α → α → Prop} {stop : α → Bool} {entries : List α} {x : α}
    (irrefl : ∀ a, ¬ r a a) (asymm : ∀ a b, r a b → ¬ r b a) (sorted : entries.Pairwise r)
    (member : x ∈ entries) (before : ∀ y ∈ entries, stop y = true → r x y)
    : x ∈ entries.takeWhile (fun y => !stop y) := by
  induction entries with
  | nil => cases member
  | cons y rest ih =>
    obtain ⟨above, others⟩ := pairwise_cons.mp sorted
    have goes : stop y = false := by
      rw [← Bool.not_eq_true]
      intro stops
      have earlier := before y mem_cons_self stops
      rcases mem_cons.mp member with rfl | later
      · exact irrefl _ earlier
      · exact asymm _ _ (above x later) earlier
    rw [takeWhile_cons_of_pos (by simp [goes])]
    rcases mem_cons.mp member with rfl | later
    · exact mem_cons_self
    · exact mem_cons_of_mem _
        (ih others later (fun z inside => before z (mem_cons_of_mem _ inside)))

/-- Every entry of a stretch is the key of a value that a node carries. -/
theorem entry_of_segment (consistent : IndexConsistent s) (inside : propIndexPrefix l k <+: p.stem)
    {e : Bytes × Bytes} (member : e ∈ (p.segment s).rest)
    : ∃ c n, e.1 = (Key.prop l k c n).bytes ∧ Carries s n l k c ∧ under p.stem e.1 = true := by
  obtain ⟨key, b⟩ := e
  obtain ⟨held, below, _⟩ := mem_segment.mp member
  obtain ⟨c, n, name, carries⟩ := entry_of_stem consistent inside held below
  exact ⟨c, n, name, carries, below⟩

/-- The values on a stretch and their owners, in the order of their keys. -/
def BandPlan.pairs (s : Store) (p : BandPlan) : List (Scalar × UInt64) :=
  (p.segment s).rest.filterMap (fun e => (parsePropKey e.1).toOption)

theorem carries_of_pairs (consistent : IndexConsistent s) (inside : propIndexPrefix l k <+: p.stem)
    {x : Scalar × UInt64} (member : x ∈ p.pairs s)
    : under p.stem (Key.prop l k x.1 x.2).bytes = true ∧ Carries s x.2 l k x.1 := by
  obtain ⟨e, member, read⟩ := mem_filterMap.mp member
  obtain ⟨c, n, name, carries, below⟩ := entry_of_segment consistent inside member
  rw [name, parsePropKey_bytes] at read
  obtain rfl := Option.some.inj read
  exact ⟨name ▸ below, carries⟩

theorem mem_pairs (consistent : IndexConsistent s) (indexed : Indexed s l k) {c : Scalar} {n : UInt64}
    (carries : Carries s n l k c)
    (reached : under p.stem (Key.prop l k c n).bytes = true ∧ p.start ≤ (Key.prop l k c n).bytes)
    : (c, n) ∈ p.pairs s := by
  obtain ⟨b, held⟩ := Option.ne_none_iff_exists'.mp (consistent.prop_iff.mpr ⟨indexed, carries⟩)
  refine mem_filterMap.mpr ⟨((Key.prop l k c n).bytes, b), ?_, by rw [parsePropKey_bytes]; rfl⟩
  exact mem_segment.mpr ⟨held, reached⟩

theorem pairs_sorted (consistent : IndexConsistent s) (inside : propIndexPrefix l k <+: p.stem)
    : (p.pairs s).Pairwise
        (fun x y => (Key.prop l k x.1 x.2).bytes < (Key.prop l k y.1 y.2).bytes) := by
  rw [BandPlan.pairs, pairwise_filterMap]
  have sorted : (p.segment s).rest.Pairwise (fun a b => a.1 < b.1) :=
    s.select_sorted (fun key => under p.stem key && decide (p.start ≤ key))
  refine sorted.imp_of_mem ?_
  intro a b left right below x first y second
  obtain ⟨c, n, name, _⟩ := entry_of_segment consistent inside left
  obtain ⟨d, m, name', _⟩ := entry_of_segment consistent inside right
  rw [name, parsePropKey_bytes] at first
  rw [name', parsePropKey_bytes] at second
  obtain rfl := Option.some.inj first
  obtain rfl := Option.some.inj second
  rw [← name, ← name']
  exact below

/-- No accepted value is missed. -/
theorem mem_listed (consistent : IndexConsistent s) (indexed : Indexed s l k) {accept : Scalar → Prop}
    (covers : Covers l k p accept) {c : Scalar} {n : UInt64} (accepted : accept c)
    (carries : Carries s n l k c)
    : (c, n) ∈ (p.segment s).listed := by
  refine mem_takeWhile_of_sorted (fun _ => List.lt_irrefl _) (fun _ _ => lt_asymm (α := Bytes))
    (pairs_sorted consistent covers.inside)
    (mem_pairs consistent indexed carries (covers.reaches c n accepted)) ?_
  rintro ⟨d, m⟩ member stops
  have below := (carries_of_pairs consistent covers.inside member).1
  exact prop_bytes_lt n m (covers.stops c d m accepted below stops)

/-- Stretches that belong to the index and share no key. -/
def Apart (l k : UInt32) (bands : List BandPlan) : Prop :=
  (∀ p ∈ bands, propIndexPrefix l k <+: p.stem)
  ∧ bands.Pairwise (fun p q => ∀ key, ¬ (under p.stem key = true ∧ under q.stem key = true))

/-- The cursor over the bands returns labelled nodes, each once. -/
theorem yields_bands (consistent : IndexConsistent s) {bands : List BandPlan} (apart : Apart l k bands)
    : ∃ nodes, Yields s (.ranges (bands.map (BandPlan.segment s))) nodes
      ∧ (nodes.map Node.id).Nodup
      ∧ (∀ node ∈ nodes, nodeAt s node.id = some node.toNodeRecord ∧ l ∈ node.labels)
      ∧ ∀ p ∈ bands, ∀ x ∈ (p.segment s).listed, x.2 ∈ nodes.map Node.id := by
  have carried (p : BandPlan) (member : p ∈ bands) (x : Scalar × UInt64)
      (returned : x ∈ (p.segment s).listed) :=
    carries_of_pairs consistent (apart.1 p member) ((takeWhile_sublist _).subset returned)
  obtain ⟨nodes, yields, ids, records⟩ := yields_segments (s := s)
    (bands.map (BandPlan.segment s)) (by
      intro seg member e entry
      obtain ⟨p, inside, rfl⟩ := mem_map.mp member
      obtain ⟨c, n, name, ⟨r, found, _⟩, _⟩ := entry_of_segment consistent (apart.1 p inside) entry
      exact ⟨c, n, r, by rw [name, parsePropKey_bytes], found⟩)
  have listed : nodes.map Node.id
      = (bands.flatMap (fun p => (p.segment s).listed)).map Prod.snd := by
    rw [ids, flatMap_map, map_flatMap]
  refine ⟨nodes, yields, ?_, ?_, ?_⟩
  · -- an owner carries one value, so it stands under one key of one band
    rw [listed]
    refine List.Nodup.map_on ?_ (nodup_flatMap.mpr ⟨?_, ?_⟩)
    · rintro ⟨c, n⟩ left ⟨d, m⟩ right (rfl : n = m)
      obtain ⟨p, member, returned⟩ := mem_flatMap.mp left
      obtain ⟨q, member', returned'⟩ := mem_flatMap.mp right
      have same := (recorded_nodes l k).single n c.toVal d.toVal (carried p member _ returned).2
        (carried q member' _ returned').2
      rw [toVal_inj.mp same]
    · intro p member
      refine ((pairs_sorted consistent (apart.1 p member)).sublist (takeWhile_sublist _)).imp ?_
      rintro x y below rfl
      exact lt_irrefl _ below
    · refine apart.2.imp_of_mem ?_
      intro p q member member' disjoint x left right
      exact disjoint _ ⟨(carried p member x left).1, (carried q member' x right).1⟩
  · intro node member
    have record := records node member
    refine ⟨record, ?_⟩
    have inside : node.id ∈ nodes.map Node.id := mem_map_of_mem member
    rw [listed] at inside
    obtain ⟨x, returned, owner⟩ := mem_map.mp inside
    obtain ⟨p, member, returned⟩ := mem_flatMap.mp returned
    obtain ⟨r, found, labelled, _⟩ := (carried p member x returned).2
    rw [owner, record] at found
    exact Option.some.inj found ▸ labelled
  · intro p member x returned
    rw [listed]
    exact mem_map_of_mem (mem_flatMap.mpr ⟨p, member, returned⟩)

end Intreccio.Graph
