import Intreccio.Exec.Transducers
import Mathlib.Data.List.Induction

/-! The rows of a projection (`project.next` and `aggregateOp.load` in `internal/exec`).
A row of values is written to a map by the names of the columns, and read back by name. Items of one name
share one value there.
-/

namespace Intreccio.Exec

open Kv Words Graph Ast Plan Program Pull List

/-- The order in which the items are written: the group keys before the aggregates. -/
def writtenOrder (items : List ProjItem) (vs : List Val) : List (ProjItem × Val) :=
  (items.zip vs).filter (fun e => !containsAggregate e.1.expr)
    ++ (items.zip vs).filter (fun e => containsAggregate e.1.expr)

/-- The values that are read back by the names of the columns. -/
def carried (items : List ProjItem) (vs : List Val) : List Val :=
  (items.map ProjItem.column).map (cell (written (writtenOrder items vs)))

/-- Items with one column have one value. -/
def Agree (items : List ProjItem) (vs : List Val) : Prop :=
  ∀ e ∈ items.zip vs, ∀ e' ∈ items.zip vs, e.1.column = e'.1.column → e.2 = e'.2

section

variable {items : List ProjItem} {vs : List Val} {l : List (ProjItem × Val)}

/-- A column has the value of one of the items of its name. -/
theorem get_written {e : ProjItem × Val} (member : e ∈ l)
    : ∃ e' ∈ l, e'.1.column = e.1.column ∧ (written l).get e.1.column = some e'.2 := by
  induction l using List.reverseRecOn with
  | nil => cases member
  | append_singleton rest last ih =>
    rw [written, foldl_append, foldl_cons, foldl_nil]
    by_cases same : last.1.column = e.1.column
    · refine ⟨last, mem_append_right _ (mem_singleton.mpr rfl), same, ?_⟩
      rw [OrderedMap.get_set, if_pos same.symm]
    · have earlier : e ∈ rest := by
        obtain earlier | here := mem_append.mp member
        · exact earlier
        · exact absurd (congrArg (·.1.column) (mem_singleton.mp here)).symm same
      obtain ⟨e', member', same', found⟩ := ih earlier
      refine ⟨e', mem_append_left _ member', same', ?_⟩
      rw [OrderedMap.get_set, if_neg (Ne.symm same)]
      exact found

/-- A list of values is that of a function of the items if each value is that of its item, by induction on the
items.
-/
theorem map_eq_iff_zip {f : ProjItem → Val} (sizes : items.length = vs.length)
    : items.map f = vs ↔ ∀ e ∈ items.zip vs, f e.1 = e.2 := by
  induction items generalizing vs with
  | nil =>
    obtain rfl := length_eq_zero_iff.mp sizes.symm
    simp
  | cons it rest ih =>
    cases vs with
    | nil => cases sizes
    | cons v vs =>
      rw [map_cons, zip_cons_cons, forall_mem_cons, List.cons.injEq, ih (by simpa using sizes)]

/-- The order of writing loses no item and adds none. -/
theorem mem_writtenOrder {e : ProjItem × Val} : e ∈ writtenOrder items vs ↔ e ∈ items.zip vs := by
  rw [writtenOrder, mem_append, mem_filter, mem_filter, ← and_or_left]
  cases containsAggregate e.1.expr <;> simp

/-- Without aggregates the items are written as they stand. -/
theorem writtenOrder_plain (plain : items.any (fun it => containsAggregate it.expr) = false)
    : writtenOrder items vs = items.zip vs := by
  have none' (e : ProjItem × Val) (member : e ∈ items.zip vs) : containsAggregate e.1.expr = false := by
    simpa using any_eq_false.mp plain e.1 (of_mem_zip member).1
  rw [writtenOrder, filter_eq_self.mpr (by simpa using none'), filter_eq_nil_iff.mpr (by simpa using none'),
    append_nil]

/-- The values are carried unchanged exactly when the items of one name agree. -/
theorem carried_eq_iff (sizes : items.length = vs.length)
    : carried items vs = vs ↔ Agree items vs := by
  rw [carried, map_map, map_eq_iff_zip sizes]
  constructor
  · intro carried e member e' member' same
    exact (carried e member).symm.trans ((congrArg _ same).trans (carried e' member'))
  · intro agree e member
    obtain ⟨e', member', same, found⟩ := get_written (mem_writtenOrder.mpr member)
    have read : cell (written (writtenOrder items vs)) e.1.column = e'.2 := by rw [cell, found, Option.getD_some]
    exact read.trans (agree e' (mem_writtenOrder.mp member') e member same)

end

/-- The accumulator of an aggregate after the rows, each added in its turn. -/
inductive Accumulates (ctx : Context) (spec : AggSpec) : Yielded → Accumulator → Prop
  | nil : Accumulates ctx spec [] (newAccumulator spec)
  | snoc {rows : Yielded} {a a' : Accumulator} {o : Row × Store} {c : Choices}
      (earlier : Accumulates ctx spec rows a) (ran : (a.add ctx o.1 spec c).read o.2 = .ok a')
      : Accumulates ctx spec (rows ++ [o]) a'

/-- The value of an item for a group of rows: that of the aggregate over all rows, or that of the
expression on the first row.
-/
def GroupValue (ctx : Context) (group : Yielded) (it : ProjItem) (v : Val) : Prop :=
  if containsAggregate it.expr then
    ∃ spec acc, parseAggFunc ctx it = .ok spec ∧ Accumulates ctx spec group acc ∧ v = acc.result spec.kind
  else ∃ o, group.head? = some o ∧ Value ctx o it.expr v

/-- Rows with the key of the group that each of them goes to. -/
abbrev Tagged := List ((Row × Store) × Str)

/-- All rows with one key, in their order. -/
def rowsWith (tagged : Tagged) (key : Str) : Yielded := (tagged.filter (fun t => t.2 = key)).map Prod.fst

/-- Each row has the key that its group keys evaluate to. -/
def KeyedBy (ctx : Context) (groupKeys : List ProjItem) (tagged : Tagged) : Prop :=
  ∀ t ∈ tagged, ∃ vs, Values ctx t.1 groupKeys vs ∧ canonKeyList vs = t.2

/-- One group of the rows: all those that have one key. If there are no rows at all, there is a group without
rows when there are no group keys.
-/
def IsGroup (ctx : Context) (groupKeys : List ProjItem) (rows group : Yielded) : Prop :=
  ∃ tagged key, tagged.map Prod.fst = rows ∧ KeyedBy ctx groupKeys tagged ∧ group = rowsWith tagged key
    ∧ (group ≠ [] ∨ groupKeys = [] ∧ rows = [])

/-- The values of the items of a projection for one of the rows, or with an aggregate among them for a group of
the rows; groups are made of all rows, so only when the input has ended.
-/
def ItemValues (ctx : Context) (rows : Yielded) (ended : Bool) (items : List ProjItem) (vs : List Val) : Prop :=
  if items.any (fun it => containsAggregate it.expr) then
    ended = true ∧ ∃ group, IsGroup ctx (items.filter (fun it => !containsAggregate it.expr)) rows group
      ∧ List.Forall₂ (GroupValue ctx group) items vs
  else ∃ o ∈ rows, Values ctx o items vs

variable {c : Choices} {o : Row × Store}

/-- The rows behind a group: the first of them has its key values, and all of them are accumulated. -/
structure Behind (ctx : Context) (groupKeys : List ProjItem) (specs : List AggSpec) (g : Group) (rows : Yielded)
    : Prop where
  keys : List.Forall₂ (fun it v => ∃ o, rows.head? = some o ∧ Value ctx o it.expr v) groupKeys g.keys
  accs : List.Forall₂ (fun spec acc => Accumulates ctx spec rows acc) specs g.accs

/-- There is one group for each key of the rows, with all rows of this key behind it; without group keys there
is a group from the start.
-/
structure Grouped (ctx : Context) (groupKeys : List ProjItem) (specs : List AggSpec) (tagged : Tagged)
    (groups : List Group) : Prop where
  keyed : KeyedBy ctx groupKeys tagged
  behind : ∀ g ∈ groups, Behind ctx groupKeys specs g (rowsWith tagged g.key)
  apart : (groups.map Group.key).Nodup
  covered : ∀ t ∈ tagged, ∃ g ∈ groups, g.key = t.2
  inhabited : ∀ g ∈ groups, rowsWith tagged g.key ≠ [] ∨ groupKeys = [] ∧ g.key = []

section

variable {ctx : Context} {groupKeys : List ProjItem} {specs : List AggSpec} {tagged : Tagged} {key : Str}
  {groups groups' : List Group}

/-- A new row joins the rows of its key only. -/
theorem rowsWith_snoc (o : Row × Store) (own : Str)
    : rowsWith (tagged ++ [(o, own)]) key = rowsWith tagged key ++ (if own = key then [o] else []) := by
  rw [rowsWith, filter_append, map_append, rowsWith]
  by_cases same : own = key <;> simp [same]

/-- There is a row with a key exactly if the key is that of a row. -/
theorem rowsWith_eq_nil_iff : rowsWith tagged key = [] ↔ ∀ t ∈ tagged, t.2 ≠ key := by
  simp [rowsWith]

/-- New accumulators are those of no rows. -/
theorem accumulates_new
    : List.Forall₂ (fun spec acc => Accumulates ctx spec [] acc) specs (specs.map newAccumulator) := by
  rw [forall₂_map_right_iff, forall₂_same]
  exact fun spec _ => .nil

/-- Before the first row there is no group, or the one of a query without group keys. -/
theorem grouped_seed : Grouped ctx groupKeys specs [] (seedGroups groupKeys specs) := by
  unfold seedGroups
  split
  next none' =>
    have none' := List.isEmpty_iff.mp none'
    refine ⟨nofun, fun g member => ?_, nodup_singleton _, nofun, fun g member => ?_⟩
    · obtain rfl := mem_singleton.mp member
      exact ⟨none' ▸ .nil, accumulates_new⟩
    · obtain rfl := mem_singleton.mp member
      exact .inr ⟨none', rfl⟩
  next => exact ⟨nofun, nofun, nodup_nil, nofun, nofun⟩

/-- A row is added to each accumulator of its group, by induction on these. -/
theorem accumulates_addAccs {rows : Yielded} {accs accs' : List Accumulator}
    (before : List.Forall₂ (fun spec acc => Accumulates ctx spec rows acc) specs accs)
    (ran : (addAccs ctx o.1 accs specs c).read o.2 = .ok accs')
    : List.Forall₂ (fun spec acc => Accumulates ctx spec (rows ++ [o]) acc) specs accs' := by
  induction before generalizing accs' c with
  | nil =>
    cases ran
    exact .nil
  | cons first rest ih =>
    obtain ⟨a, added, ran⟩ := (read_bind_ok (reads_add _ _ _ _ _)).mp ran
    obtain ⟨more, later, same⟩ := (read_bind_ok (reads_addAccs _ _ _ _ _)).mp ran
    cases same
    exact .cons (.snoc first added) (ih later)

/-- One more row stands behind a group when it is accumulated there; the key values stay those of the first. -/
theorem Behind.snoc {g : Group} {rows : Yielded} {accs : List Accumulator}
    (behind : Behind ctx groupKeys specs g rows) (ran : (addAccs ctx o.1 g.accs specs c).read o.2 = .ok accs)
    : Behind ctx groupKeys specs { g with accs := accs } (rows ++ [o]) := by
  refine ⟨behind.keys.imp ?_, accumulates_addAccs behind.accs ran⟩
  rintro it v ⟨o', first, value⟩
  exact ⟨o', by rw [head?_append, first]; rfl, value⟩

/-- A row goes to the group that has its key, or it opens a group. -/
theorem addRow_cases (apart : (groups.map Group.key).Nodup)
    (ran : (addRow ctx groupKeys specs groups o.1 c).read o.2 = .ok groups')
    : ∃ keys accs c', (evalItems ctx o.1 groupKeys (c.sub 0)).read o.2 = .ok keys
      ∧ ((∃ before g after, groups = before ++ g :: after ∧ g.key = canonKeyList keys
          ∧ (addAccs ctx o.1 g.accs specs c').read o.2 = .ok accs
          ∧ groups' = before ++ { g with accs := accs } :: after)
        ∨ ((∀ g ∈ groups, g.key ≠ canonKeyList keys)
          ∧ (addAccs ctx o.1 (specs.map newAccumulator) specs c').read o.2 = .ok accs
          ∧ groups' = groups ++ [⟨canonKeyList keys, keys, accs⟩])) := by
  obtain ⟨keys, evaluated, ran⟩ := (read_bind_ok (reads_evalItems _ _ _ _)).mp ran
  dsimp only at ran
  split at ran
  next g found =>
    have key : g.key = canonKeyList keys := by simpa using find?_some found
    obtain ⟨accs, added, same⟩ := (read_bind_ok (reads_addAccs _ _ _ _ _)).mp ran
    cases same
    obtain ⟨before, after, rfl⟩ := append_of_mem (mem_of_find?_eq_some found)
    refine ⟨keys, accs, _, evaluated, .inl ⟨before, g, after, rfl, key, added, ?_⟩⟩
    -- the other groups have other keys, so they stay as they are
    have others {h : Group} (member : h ∈ before ∨ h ∈ after) : h.key ≠ canonKeyList keys := by
      intro same
      rw [map_append, map_cons] at apart
      have once := nodup_cons.mp (nodup_middle.mp apart)
      exact once.1 (key.trans same.symm ▸ by simpa using member.imp (⟨h, ·, rfl⟩) (⟨h, ·, rfl⟩))
    have stay {l : List Group} (inside : ∀ h ∈ l, h ∈ before ∨ h ∈ after)
        : l.map (fun h => if h.key = canonKeyList keys then { h with accs := accs } else h) = l := by
      calc
        _ = l.map id := map_congr_left fun h member => if_neg (others (inside h member))
        _ = l := map_id l
    rw [map_append, map_cons, if_pos key, stay fun h => .inl, stay fun h => .inr]
  next none' =>
    obtain ⟨accs, added, same⟩ := (read_bind_ok (reads_addAccs _ _ _ _ _)).mp ran
    cases same
    refine ⟨keys, accs, _, evaluated, .inr ⟨fun g member => ?_, added, rfl⟩⟩
    simpa using find?_eq_none.mp none' g member

/-- One more row with its key. -/
theorem KeyedBy.snoc {keys : List Val} (keyed : KeyedBy ctx groupKeys tagged) (values : Values ctx o groupKeys keys)
    : KeyedBy ctx groupKeys (tagged ++ [(o, canonKeyList keys)]) := by
  intro t member
  obtain old | new := mem_append.mp member
  · exact keyed t old
  · obtain rfl := mem_singleton.mp new
    exact ⟨keys, values, rfl⟩

/-- One more row is put into its group: the group of its key has one row more, and the others stay. -/
theorem Grouped.addRow (grouped : Grouped ctx groupKeys specs tagged groups)
    (ran : (Exec.addRow ctx groupKeys specs groups o.1 c).read o.2 = .ok groups')
    : ∃ own, Grouped ctx groupKeys specs (tagged ++ [(o, own)]) groups' := by
  have apart := grouped.apart
  obtain ⟨keys, accs, c', evaluated, cases⟩ := addRow_cases apart ran
  have keyed := grouped.keyed.snoc (values_of_evalItems evaluated)
  have other {h : Group} (differs : canonKeyList keys ≠ h.key)
      : rowsWith (tagged ++ [(o, canonKeyList keys)]) h.key = rowsWith tagged h.key := by
    rw [rowsWith_snoc, if_neg differs, append_nil]
  have own {h : Group} (same : canonKeyList keys = h.key)
      : rowsWith (tagged ++ [(o, canonKeyList keys)]) h.key = rowsWith tagged h.key ++ [o] := by
    rw [rowsWith_snoc, if_pos same]
  have inhabited {h : Group} (member : h ∈ groups)
      : rowsWith (tagged ++ [(o, canonKeyList keys)]) h.key ≠ [] ∨ groupKeys = [] ∧ h.key = [] := by
    refine (grouped.inhabited h member).imp_left fun some' => ?_
    rw [rowsWith_snoc]
    exact append_ne_nil_of_left_ne_nil some' _
  refine ⟨canonKeyList keys, ?_⟩
  obtain ⟨before, g, after, rfl, key, added, rfl⟩ | ⟨fresh, added, rfl⟩ := cases
  · -- the keys of the groups are the same as before
    have listed {h : Group} (member : h ∈ before ∨ h ∈ after) : h ∈ before ++ g :: after := by
      obtain earlier | later := member
      · exact mem_append_left _ earlier
      · exact mem_append_right _ (mem_cons_of_mem _ later)
    have split {h : Group} (member : h ∈ before ++ { g with accs := accs } :: after)
        : h = { g with accs := accs } ∨ h ∈ before ∨ h ∈ after := by
      obtain earlier | rest := mem_append.mp member
      · exact .inr (.inl earlier)
      · exact (mem_cons.mp rest).imp_right .inr
    have here : g ∈ before ++ g :: after := mem_append_right _ mem_cons_self
    refine ⟨keyed, fun h member => ?_, by simpa using apart, fun t member => ?_, fun h member => ?_⟩
    · obtain rfl | others := split member
      · have joined := (grouped.behind g here).snoc added
        exact own key.symm ▸ joined
      · have differs : canonKeyList keys ≠ h.key := by
          intro same
          rw [map_append, map_cons] at apart
          have once := nodup_cons.mp (nodup_middle.mp apart)
          exact once.1 (key.trans same ▸ by simpa using others.imp (⟨h, ·, rfl⟩) (⟨h, ·, rfl⟩))
        rw [other differs]
        exact grouped.behind h (listed others)
    · have kept {k : Str} (found : ∃ h ∈ before ++ g :: after, h.key = k)
          : ∃ h ∈ before ++ { g with accs := accs } :: after, h.key = k := by
        have listed : k ∈ (before ++ g :: after).map Group.key := mem_map.mpr found
        refine mem_map.mp ?_
        simpa using listed
      obtain old | new := mem_append.mp member
      · exact kept (grouped.covered t old)
      · obtain rfl := mem_singleton.mp new
        exact kept ⟨g, here, key⟩
    · obtain rfl | others := split member
      · exact inhabited (h := g) here
      · exact inhabited (listed others)
  · have joined : rowsWith (tagged ++ [(o, canonKeyList keys)]) (canonKeyList keys) = [o] := by
      have none' : rowsWith tagged (canonKeyList keys) = [] := by
        refine rowsWith_eq_nil_iff.mpr fun t member same => ?_
        obtain ⟨g, listed, tag⟩ := grouped.covered t member
        exact fresh g listed (tag.trans same)
      rw [rowsWith_snoc, none', if_pos rfl, nil_append]
    refine ⟨keyed, fun g member => ?_, ?_, fun t member => ?_, fun g member => ?_⟩
    · obtain old | new := mem_append.mp member
      · rw [other (Ne.symm (fresh g old))]
        exact grouped.behind g old
      · obtain rfl := mem_singleton.mp new
        rw [joined]
        have values := values_of_evalItems evaluated
        exact ⟨values.imp fun it v value => ⟨o, rfl, value⟩, accumulates_addAccs accumulates_new added⟩
    · rw [map_append, map_singleton]
      refine List.Nodup.append apart (nodup_singleton _) ?_
      rintro key old new
      obtain rfl := mem_singleton.mp new
      obtain ⟨g, member, same⟩ := mem_map.mp old
      exact fresh g member same
    · obtain old | new := mem_append.mp member
      · obtain ⟨g, listed, tag⟩ := grouped.covered t old
        exact ⟨g, mem_append_left _ listed, tag⟩
      · obtain rfl := mem_singleton.mp new
        exact ⟨_, mem_append_right _ (mem_singleton.mpr rfl), rfl⟩
    · obtain old | new := mem_append.mp member
      · exact inhabited old
      · obtain rfl := mem_singleton.mp new
        exact .inl (joined ▸ cons_ne_nil o [])

/-- Every group that was made is a group of the rows. -/
theorem Grouped.isGroup (grouped : Grouped ctx groupKeys specs tagged groups) {g : Group} (member : g ∈ groups)
    : IsGroup ctx groupKeys (tagged.map Prod.fst) (rowsWith tagged g.key) := by
  refine ⟨tagged, g.key, rfl, grouped.keyed, rfl, ?_⟩
  by_cases some' : rowsWith tagged g.key = []
  · obtain rows | ⟨rfl, key⟩ := grouped.inhabited g member
    · exact .inl rows
    · -- without group keys all rows have the same key, so there are none
      refine .inr ⟨rfl, map_eq_nil_iff.mpr (eq_nil_iff_forall_not_mem.mpr fun t listed => ?_)⟩
      obtain ⟨vs, values, tag⟩ := grouped.keyed t listed
      cases values
      exact rowsWith_eq_nil_iff.mp some' t listed (tag.symm.trans key.symm)
  · exact .inl some'

/-- The row is that of a group of all rows of the input. -/
def Aggregated (ctx : Context) (groupKeys aggs : List ProjItem) (ins : Yielded) (ended : Bool) (r : Row) : Prop :=
  ended = true ∧ ∃ specs g group, parseAggFuncs ctx aggs = .ok specs ∧ IsGroup ctx groupKeys ins group
    ∧ Behind ctx groupKeys specs g group ∧ r = groupRow groupKeys aggs specs g

/-- An aggregation collects groups, and yields their rows once its input has ended. -/
def Aggregates (ctx : Context) (groupKeys aggs : List ProjItem) (ins : Yielded) (ended : Bool) (outs : Yielded)
    (_ : Store) (u : Unary) : Prop :=
  (∃ ch, u = .aggregate groupKeys aggs none none ch ∧ ins = [] ∧ ended = false ∧ outs = [])
    ∨ (∃ specs tagged groups ch, u = .aggregate groupKeys aggs (some groups) none ch ∧ ended = false ∧ outs = []
      ∧ parseAggFuncs ctx aggs = .ok specs ∧ tagged.map Prod.fst = ins ∧ Grouped ctx groupKeys specs tagged groups)
    ∨ ∃ groups rest ch, u = .aggregate groupKeys aggs (some groups) (some rest) ch ∧ ended = true
      ∧ ∀ r ∈ outs.map Prod.fst ++ rest, Aggregated ctx groupKeys aggs ins true r

/-- An aggregation yields the rows of its groups once its input has ended. -/
theorem aggregates_law (aggs : List ProjItem)
    : Operates ctx (Aggregates ctx groupKeys aggs) (fun ins ended outs _ => ended = true
        ∧ ∀ r ∈ outs.map Prod.fst, Aggregated ctx groupKeys aggs ins true r) where
  reading := by
    rintro ins ended outs s u (⟨ch, rfl, _⟩ | ⟨specs, tagged, groups, ch, rfl, _⟩ | ⟨groups, rest, ch, rfl, _⟩)
    · trivial
    · trivial
    · trivial
  act := by
    rintro ins ended outs s u p t u' (⟨ch, rfl, rfl, rfl, rfl⟩ | ⟨specs, tagged, groups, ch, rfl, _⟩
      | ⟨groups, rest, ch, rfl, rfl, made⟩) acts ran
    · cases acts
      obtain ⟨specs, parsed, same⟩ := (read_bind_ok (reads_ofExcept _)).mp ran
      cases same
      rw [read_ofExcept] at parsed
      exact ⟨fun _ => .inr (.inl ⟨specs, [], _, ch, rfl, rfl, rfl, parsed, rfl, grouped_seed⟩), nofun⟩
    · cases acts
    · cases rest with
      | nil =>
        cases acts
        cases ran
        rw [append_nil] at made
        exact ⟨fun going => absurd rfl going, fun _ => ⟨rfl, made⟩⟩
      | cons b rest =>
        cases acts
        cases ran
        refine ⟨fun _ => .inr (.inr ⟨groups, rest, ch, rfl, rfl, ?_⟩), nofun⟩
        rw [map_append, append_assoc]
        exact made
  idle := by
    rintro ins ended outs s u (⟨ch, rfl, _⟩ | ⟨specs, tagged, groups, ch, rfl, rfl, grouped⟩
      | ⟨groups, rest, ch, rfl, _⟩) idle
    · cases idle
    · exact ⟨rfl, fun _ => .inr (.inl ⟨specs, tagged, groups, ch, rfl, rfl, grouped⟩)⟩
    · cases rest <;> cases idle
  feed := by
    rintro ins outs u b s t u' (⟨ch, rfl, _⟩ | ⟨specs, tagged, groups, ch, rfl, _, rfl, parsed, rfl, grouped⟩
      | ⟨groups, rest, ch, rfl, impossible, _⟩) idle ran
    · cases idle
    · obtain ⟨specs', parsed', ran⟩ := (read_bind_ok (reads_ofExcept _)).mp ran
      rw [read_ofExcept, parsed] at parsed'
      cases parsed'
      obtain ⟨groups', added, same⟩ := (read_bind_ok (reads_addRow _ _ _ _ _ _)).mp ran
      cases same
      obtain ⟨own, grouped'⟩ := grouped.addRow (o := (b, s)) added
      exact ⟨nofun, .inr (.inl ⟨specs, _, groups', _, rfl, rfl, rfl, parsed, by simp, grouped'⟩)⟩
    · cases impossible
  close := by
    rintro ins outs u s t u' (⟨ch, rfl, _⟩ | ⟨specs, tagged, groups, ch, rfl, _, rfl, parsed, rfl, grouped⟩
      | ⟨groups, rest, ch, rfl, impossible, _⟩) idle ran
    · cases idle
    · obtain ⟨specs', parsed', same⟩ := (read_bind_ok (reads_ofExcept _)).mp ran
      rw [read_ofExcept, parsed] at parsed'
      cases parsed'
      cases same
      refine ⟨fun _ => .inr (.inr ⟨groups, _, ch, rfl, rfl, fun r member => ?_⟩), nofun⟩
      obtain ⟨g, old, rfl⟩ := mem_map.mp member
      exact ⟨rfl, specs, g, _, parsed, grouped.isGroup old, grouped.behind g old, rfl⟩
    · cases impossible

/-- An aggregation yields the rows of groups of all rows that it was fed. -/
theorem yields_aggregate (aggs : List ProjItem) (ch : Choices)
    : (Unary.aggregate groupKeys aggs none none ch).Yields ctx (Aggregated ctx groupKeys aggs) := by
  refine ⟨_, _, aggregates_law aggs, fun s => .inl ⟨ch, rfl, rfl, rfl, rfl⟩, ?_⟩
  rintro ins ended outs s u' (⟨_, _, _, _, rfl⟩ | ⟨_, _, _, _, _, _, rfl, _⟩ | ⟨_, rest, _, _, rfl, made⟩) o member
  · cases member
  · cases member
  · exact made o.1 (mem_append_left _ (mem_map_of_mem member))

end

section

variable {ctx : Context} {items aggs : List ProjItem} {specs : List AggSpec} {accs : List Accumulator}
  {rows : Yielded} {ended : Bool}

/-- Values of two kinds of items, put in the order of the items; by induction on the items. -/
theorem interleave {kind : ProjItem → Bool} {A B : ProjItem → Val → Prop} {keys results : List Val}
    (left : List.Forall₂ A (items.filter (fun it => !kind it)) keys)
    (right : List.Forall₂ B (items.filter kind) results)
    : ∃ vs, List.Forall₂ (fun it v => if kind it then B it v else A it v) items vs
      ∧ (items.filter (fun it => !kind it)).zip keys = (items.zip vs).filter (fun e => !kind e.1)
      ∧ (items.filter kind).zip results = (items.zip vs).filter (fun e => kind e.1) := by
  induction items generalizing keys results with
  | nil => exact ⟨[], .nil, rfl, rfl⟩
  | cons it rest ih =>
    cases here : kind it with
    | true =>
      rw [filter_cons_of_neg (by simp [here])] at left ⊢
      rw [filter_cons_of_pos here] at right ⊢
      cases right with
      | cons holds right =>
        obtain ⟨vs, values, lefts, rights⟩ := ih left right
        refine ⟨_ :: vs, .cons (by rwa [if_pos here]) values, ?_, ?_⟩
        · rw [zip_cons_cons, filter_cons_of_neg (by simp [here]), lefts]
        · rw [zip_cons_cons, zip_cons_cons, filter_cons_of_pos (by simpa using here), rights]
    | false =>
      rw [filter_cons_of_pos (by simp [here])] at left ⊢
      rw [filter_cons_of_neg (by simp [here])] at right ⊢
      cases left with
      | cons holds left =>
        obtain ⟨vs, values, lefts, rights⟩ := ih left right
        refine ⟨_ :: vs, .cons (by rwa [if_neg (by simp [here])]) values, ?_, ?_⟩
        · rw [zip_cons_cons, zip_cons_cons, filter_cons_of_pos (by simp [here]), lefts]
        · rw [zip_cons_cons, filter_cons_of_neg (by simp [here]), rights]

/-- The aggregates are parsed one by one. -/
theorem parsed_each (parsed : parseAggFuncs ctx aggs = .ok specs)
    : List.Forall₂ (fun it spec => parseAggFunc ctx it = .ok spec) aggs specs := by
  induction aggs generalizing specs with
  | nil =>
    cases parsed
    exact .nil
  | cons it rest ih =>
    obtain ⟨spec, here, parsed⟩ := bind_eq_ok.mp parsed
    obtain ⟨more, later, same⟩ := bind_eq_ok.mp parsed
    cases same
    exact .cons here (ih later)

/-- The results of the accumulators are the values of the aggregates for the rows. -/
theorem results_each (parsed : List.Forall₂ (fun it spec => parseAggFunc ctx it = .ok spec) aggs specs)
    (accumulated : List.Forall₂ (fun spec acc => Accumulates ctx spec rows acc) specs accs)
    : List.Forall₂ (fun it v => ∃ spec acc, parseAggFunc ctx it = .ok spec ∧ Accumulates ctx spec rows acc
        ∧ v = acc.result spec.kind) aggs ((accs.zip specs).map (fun p => p.1.result p.2.kind)) := by
  induction parsed generalizing accs with
  | nil =>
    cases accumulated
    exact .nil
  | cons here _ ih =>
    cases accumulated with
    | cons first rest => exact .cons ⟨_, _, here, first, rfl⟩ (ih rest)

/-- The row that a projection yields is written of the values of its items on a row of the input. -/
theorem written_of_projected {r : Row} (plain : items.any (fun it => containsAggregate it.expr) = false)
    (projected : ∃ o ∈ rows, Projected ctx items o r)
    : ∃ vs, ItemValues ctx rows ended items vs ∧ r = written (writtenOrder items vs) := by
  obtain ⟨o, member, vs, values, rfl⟩ := projected
  refine ⟨vs, ?_, by rw [writtenOrder_plain plain]⟩
  rw [ItemValues, plain]
  exact ⟨o, member, values⟩

/-- The row that an aggregation yields is written of the values of its items for a group. -/
theorem written_of_aggregated {r : Row} (grouping : items.any (fun it => containsAggregate it.expr) = true)
    (aggregated : Aggregated ctx (items.filter (fun it => !containsAggregate it.expr))
      (items.filter (fun it => containsAggregate it.expr)) rows ended r)
    : ∃ vs, ItemValues ctx rows ended items vs ∧ r = written (writtenOrder items vs) := by
  obtain ⟨rfl, specs, g, group, parsed, isGroup, behind, rfl⟩ := aggregated
  obtain ⟨vs, values, keys, results⟩ := interleave behind.keys (results_each (parsed_each parsed) behind.accs)
  refine ⟨vs, ?_, ?_⟩
  · rw [ItemValues, grouping]
    exact ⟨rfl, group, isGroup, values⟩
  · rw [writtenOrder, ← keys, ← results, groupRow, written, foldl_append]
    rfl

/-- There is a value for each item. -/
theorem ItemValues.length_eq {vs : List Val} (values : ItemValues ctx rows ended items vs)
    : items.length = vs.length := by
  unfold ItemValues at values
  split at values
  · obtain ⟨_, _, _, values⟩ := values
    exact List.Forall₂.length_eq values
  · obtain ⟨_, _, values⟩ := values
    exact List.Forall₂.length_eq values

end

end Intreccio.Exec
