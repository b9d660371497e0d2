import Intreccio.Exec.Distinct
import Intreccio.Exec.Projection

/-! The keys of grouping, UNION and aggregates with DISTINCT (`canonKeyList` in `internal/exec/aggregate.go`).
The texts of the values of a tuple are joined with a bar, which a string may contain, and the text of a list
or a map shows neither the types of its elements nor where they end. So different tuples can have one key.
-/

namespace Intreccio.Exec

open Intreccio.Graph Kv Words Ast Plan List
open Kv.Program

/-- Some column of the tuples has values that the query equality finds different. -/
def TuplesDiffer (t t' : List Val) : Prop := ∃ e ∈ t.zip t', equality e.1 e.2 = some false

/-- Identical tuples are kept once, and what is dropped is represented by something kept from which it does
not differ; different tuples have different representatives.
-/
structure MergesTuples {α : Type} (tuple : α → List Val) (l kept : List α) : Prop where
  among : kept.Sublist l
  identical : kept.Pairwise (fun x y => tuple x ≠ tuple y)
  both
    : ∃ rep : α → α, (∀ x ∈ l, rep x ∈ kept ∧ ¬ TuplesDiffer (tuple x) (tuple (rep x)))
      ∧ ∀ x ∈ l, ∀ y ∈ l, TuplesDiffer (tuple x) (tuple y) → rep x ≠ rep y

abbrev Keyed := List ((Row × Store) × List Val)

inductive GroupsOf (ctx : Context) (groupKeys : List ProjItem) (specs : List AggSpec)
    : Keyed → List Group → Prop
  | seed : GroupsOf ctx groupKeys specs [] (seedGroups groupKeys specs)
  | row {rows : Keyed} {groups groups' : List Group} {o : Row × Store} {t : List Val} {c : Choices}
      (earlier : GroupsOf ctx groupKeys specs rows groups)
      (tuple : (evalItems ctx o.1 groupKeys (c.sub 0)).read o.2 = .ok t)
      (ran : (addRow ctx groupKeys specs groups o.1 c).read o.2 = .ok groups')
      : GroupsOf ctx groupKeys specs (rows ++ [(o, t)]) groups'

/-- The rows are parted into those of each group: identical tuples are in one group, different ones are not. -/
structure Parts (ctx : Context) (specs : List AggSpec) (rows : Keyed) (groups : List Group) (parts : List Keyed)
    : Prop where
  all : parts.flatten.Perm rows
  accs
    : List.Forall₂ (fun g part => List.Forall₂ (fun spec acc =>
        Accumulates ctx spec (part.map Prod.fst) acc) specs g.accs) groups parts
  identical : parts.Pairwise (fun part part' => ∀ e ∈ part, ∀ e' ∈ part', e.2 ≠ e'.2)
  different : ∀ part ∈ parts, ∀ e ∈ part, ∀ e' ∈ part, ¬ TuplesDiffer e.2 e'.2

inductive Takes (ctx : Context) (spec : AggSpec) (arg : Expr) : List Val → Accumulator → Prop
  | new : Takes ctx spec arg [] (newAccumulator spec)
  | value {vs : List Val} {a a' : Accumulator} {o : Row × Store} {v : Val} {c : Choices}
      (earlier : Takes ctx spec arg vs a) (found : (eval ctx arg o.1 c).read o.2 = .ok v)
      (ran : (a.add ctx o.1 spec c).read o.2 = .ok a')
      : Takes ctx spec arg (vs ++ [v]) a'

/-- The values are those that the aggregate has counted, each one time. -/
def Counts (spec : AggSpec) (kept : List Val) (a : Accumulator) : Prop :=
  kept.foldlM (fun a v => a.addValue spec.kind v) (newAccumulator spec) = .ok { a with seen := [] }

/-- Grouping, UNION and aggregates with DISTINCT tell the tuples of a set apart. -/
structure KeysTell (ctx : Context) (S : Set (List Val)) : Prop where
  groups
    : ∀ groupKeys specs rows groups, GroupsOf ctx groupKeys specs rows groups → (∀ e ∈ rows, e.2 ∈ S)
      → ∃ parts, Parts ctx specs rows groups parts
  union
    : ∀ columns l, (∀ r ∈ l, columns.map (cell r) ∈ S)
      → MergesTuples (fun r => columns.map (cell r)) l (distinctFrom true (unionKey · columns) [] l)
  distinct
    : ∀ spec arg vs a, spec.distinct = true → spec.arg = some arg → Takes ctx spec arg vs a
      → (∀ v ∈ vs, isNull v = false → [v] ∈ S)
      → ∃ kept, Counts spec kept a ∧ MergesTuples (fun v => [v]) (vs.filter (fun v => !isNull v)) kept

/-- The values of the types without a key of their own, which is printed with `%v`. -/
def Printed : Val → Prop
  | .goInt _ | .list _ | .map _ | .edges _ | .other _ => True
  | _ => False

/-- Values of one type with the same contents: nodes and relationships of one ID, paths of the same IDs, floats
that print alike; lists, maps and whatever else is printed with `%v` if the texts are the same.
-/
def SameText : Val → Val → Prop
  | .null, .null => True
  | .bool a, .bool b => a = b
  | .int i, .int j => i = j
  | .float f, .float g => f.text = g.text
  | .str a, .str b => a = b
  | .node n, .node m => n.id = m.id
  | .edge e, .edge f => e.id = f.id
  | .path nodes rels, .path nodes' rels' => pathIDs nodes rels = pathIDs nodes' rels'
  | v, w => Printed v ∧ Printed w ∧ sprint v = sprint w

/-- The byte between the keys of two columns. -/
def bar : UInt8 := 124

/-- Tuples have alike values in all columns, or a column of one of them reaches over the end of the column of the
other.
-/
def SameKey (t t' : List Val) : Prop :=
  List.Forall₂ SameText t t' ∨ Overhangs canonKey bar t t' ∨ Overhangs canonKey bar t' t

theorem lit_append (a b : String) : lit (a ++ b) = lit a ++ lit b := by simp [lit]

/-- The key of a value is its tag, followed by the text of its contents. -/
def keyParts : Val → UInt8 × Str
  | .null => (110, [])
  | .bool b => (98, if b then lit ":1" else lit ":0")
  | .int i => (105, lit (":" ++ toString i.toInt))
  | .float f => (102, lit (":" ++ f.text))
  | .str s => (115, lit ":" ++ s)
  | .node n => (78, lit (":" ++ toString n.id.toNat))
  | .edge e => (69, lit (":" ++ toString e.id.toNat))
  | .path nodes rels => (80, lit ":" ++ pathIDs nodes rels)
  | v => (63, lit ":" ++ sprint v)

theorem canonKey_eq (v : Val) : canonKey v = (keyParts v).1 :: (keyParts v).2 := by
  have split (a b : String) (c : UInt8) (tag : lit a = c :: lit ":") : lit (a ++ b) = c :: lit (":" ++ b) := by
    rw [lit_append, lit_append, tag]
    rfl
  cases v with
  | bool b => cases b <;> rfl
  | int i => exact split _ _ _ rfl
  | float f => exact split _ _ _ rfl
  | node n => exact split _ _ _ rfl
  | edge e => exact split _ _ _ rfl
  | _ => rfl

/-- Values have one key exactly when they are alike, by cases on their types. -/
theorem canonKey_eq_iff (v w : Val) : canonKey v = canonKey w ↔ SameText v w := by
  have text {a b : String} : lit (":" ++ a) = lit (":" ++ b) ↔ a = b := by
    rw [lit_append, lit_append, append_right_inj]
    exact ⟨lit_injective, congrArg lit⟩
  have printed {a b : Str} : lit ":" ++ a = lit ":" ++ b ↔ a = b := append_right_inj _
  have bits {a b : Bool} : (if a then lit ":1" else lit ":0") = (if b then lit ":1" else lit ":0") ↔ a = b := by
    cases a <;> cases b <;> decide
  rw [canonKey_eq, canonKey_eq, List.cons.injEq]
  cases v <;> cases w <;>
    simp [keyParts, SameText, Printed, text, printed, bits, Int64.toInt_inj, UInt64.toNat_inj]

theorem canonKeyList_eq (t : List Val) : canonKeyList t = joinedBy bar (t.map canonKey) := by
  fun_induction canonKeyList t with
  | case1 | case2 => rfl
  | case3 v rest more ih =>
    rw [ih, map_cons, joinedBy_cons (fun none' => more (by simpa using none')), append_assoc]
    rfl

/-- Tuples of one size have the same key for no other reason. -/
theorem canonKeyList_eq_iff {t t' : List Val} (sizes : t.length = t'.length)
    : canonKeyList t = canonKeyList t' ↔ SameKey t t' := by
  have alike : t.map canonKey = t'.map canonKey ↔ List.Forall₂ SameText t t' := by
    rw [← forall₂_eq_eq_eq, forall₂_map_left_iff, forall₂_map_right_iff]
    simp only [canonKey_eq_iff]
  rw [canonKeyList_eq, canonKeyList_eq, joinedBy_eq_iff sizes, Collide, alike, SameKey]

/-- Tuples of the set that differ do not have the same key. -/
def Told (S : Set (List Val)) : Prop :=
  ∀ t ∈ S, ∀ t' ∈ S, t.length = t'.length → TuplesDiffer t t' → ¬ SameKey t t'

/-- Of the things with one key the first one is kept. -/
theorem mergesTuples_firsts {α : Type} {S : Set (List Val)} (told : Told S) (tuple : α → List Val) {l : List α}
    {size : Nat} (sized : ∀ x ∈ l, (tuple x).length = size) (inside : ∀ x ∈ l, tuple x ∈ S)
    : MergesTuples tuple l (firsts (fun x => canonKeyList (tuple x)) [] l) := by
  have first (x : α) : ∃ y, x ∈ l → y ∈ firsts (fun x => canonKeyList (tuple x)) [] l
      ∧ canonKeyList (tuple y) = canonKeyList (tuple x) := by
    by_cases member : x ∈ l
    · obtain ⟨y, taken, same⟩ :=
        (exists_first (fun x => canonKeyList (tuple x)) [] member).resolve_left not_mem_nil
      exact ⟨y, fun _ => ⟨taken, same⟩⟩
    · exact ⟨x, fun here => absurd here member⟩
  choose rep kept using first
  have agree {x y : α} (here : x ∈ l) (there : y ∈ l) (same : canonKeyList (tuple x) = canonKeyList (tuple y))
      : ¬ TuplesDiffer (tuple x) (tuple y) := by
    have sizes := (sized x here).trans (sized y there).symm
    exact fun differ => told _ (inside x here) _ (inside y there) sizes differ ((canonKeyList_eq_iff sizes).mp same)
  have apart := pairwise_firsts (fun x => canonKeyList (tuple x)) [] l
  refine ⟨firsts_sublist _ _ _, apart.imp fun other same => other (congrArg _ same), rep, ?_, ?_⟩
  · intro x member
    obtain ⟨taken, same⟩ := kept x member
    exact ⟨taken, agree member ((firsts_sublist _ _ _).subset taken) same.symm⟩
  · intro x here y there differ same
    have common : canonKeyList (tuple x) = canonKeyList (tuple y) := by
      rw [← (kept x here).2, same, (kept y there).2]
    exact agree here there common differ

section

variable {ctx : Context} {groupKeys : List ProjItem} {specs : List AggSpec} {rows : Keyed} {groups : List Group}

/-- The rows of a group have its key, and it has accumulated them. -/
def Holding (ctx : Context) (specs : List AggSpec) (g : Group) (part : Keyed) : Prop :=
  (∀ e ∈ part, canonKeyList e.2 = g.key)
    ∧ List.Forall₂ (fun spec acc => Accumulates ctx spec (part.map Prod.fst) acc) specs g.accs

theorem Holding.snoc {g : Group} {part : Keyed} {o : Row × Store} {t : List Val} {accs : List Accumulator}
    {c : Choices} (holding : Holding ctx specs g part) (key : canonKeyList t = g.key)
    (ran : (addAccs ctx o.1 g.accs specs c).read o.2 = .ok accs)
    : Holding ctx specs { g with accs := accs } (part ++ [(o, t)]) := by
  refine ⟨fun e member => ?_, ?_⟩
  · obtain earlier | here := mem_append.mp member
    · exact holding.1 e earlier
    · obtain rfl := mem_singleton.mp here
      exact key
  · rw [map_append, map_singleton]
    exact accumulates_addAccs holding.2 ran

/-- Every row is in the part of one group. -/
theorem GroupsOf.exists_parts (grouped : GroupsOf ctx groupKeys specs rows groups)
    : (groups.map Group.key).Nodup ∧ ∃ parts, parts.flatten.Perm rows
      ∧ List.Forall₂ (Holding ctx specs) groups parts := by
  induction grouped with
  | seed =>
    have seeded : Grouped ctx groupKeys specs [] (seedGroups groupKeys specs) := grouped_seed
    refine ⟨seeded.apart, ?_⟩
    unfold seedGroups
    split
    next => exact ⟨[[]], .refl _, .cons ⟨nofun, accumulates_new⟩ .nil⟩
    next => exact ⟨[], .refl _, .nil⟩
  | @row rows groups groups' o t c earlier tuple ran ih =>
    obtain ⟨apart, parts, all, holding⟩ := ih
    obtain ⟨keys, accs, c', evaluated, cases⟩ := addRow_cases apart ran
    obtain rfl : t = keys := Except.ok.inj (tuple.symm.trans evaluated)
    obtain ⟨before, g, after, rfl, key, added, rfl⟩ | ⟨fresh, added, rfl⟩ := cases
    · refine ⟨by simpa using apart, ?_⟩
      have held₁ := forall₂_take before.length holding
      have held := forall₂_drop before.length holding
      rw [← take_append_drop before.length parts] at all
      generalize parts.take before.length = parts₁ at all held₁
      generalize parts.drop before.length = rest at all held
      rw [take_left] at held₁
      rw [drop_left] at held
      obtain ⟨part, parts₂, here, held₂, rfl⟩ := forall₂_cons_left_iff.mp held
      refine ⟨parts₁ ++ (part ++ [(o, t)]) :: parts₂, ?_,
        rel_append held₁ (.cons (here.snoc key.symm added) held₂)⟩
      rw [flatten_append, flatten_cons] at all ⊢
      refine List.Perm.trans ?_ (all.append_right [(o, t)])
      rw [append_assoc, append_assoc, append_assoc]
      exact ((perm_append_comm).append_left part).append_left _
    · refine ⟨?_, parts ++ [[(o, t)]], ?_, rel_append holding (.cons ⟨?_, ?_⟩ .nil)⟩
      · rw [map_append, map_singleton]
        refine List.Nodup.append apart (nodup_singleton _) ?_
        rintro key old new
        obtain rfl := mem_singleton.mp new
        obtain ⟨g, member, same⟩ := mem_map.mp old
        exact fresh g member same
      · rw [flatten_append, flatten_singleton]
        exact all.append_right _
      · intro e member
        obtain rfl := mem_singleton.mp member
        rfl
      · exact accumulates_addAccs accumulates_new added

theorem GroupsOf.sized (grouped : GroupsOf ctx groupKeys specs rows groups)
    : ∀ e ∈ rows, e.2.length = groupKeys.length := by
  induction grouped with
  | seed => exact nofun
  | row earlier tuple ran ih =>
    intro e member
    obtain old | here := mem_append.mp member
    · exact ih e old
    · obtain rfl := mem_singleton.mp here
      exact (values_of_evalItems tuple).length_eq.symm

/-- Grouping is right when the keys tell the tuples apart. -/
theorem parts_of_told {S : Set (List Val)} (told : Told S) (grouped : GroupsOf ctx groupKeys specs rows groups)
    (inside : ∀ e ∈ rows, e.2 ∈ S) : ∃ parts, Parts ctx specs rows groups parts := by
  obtain ⟨apart, parts, all, holding⟩ := grouped.exists_parts
  refine ⟨parts, all, holding.imp fun g part holds => holds.2, ?_, ?_⟩
  · clear all grouped
    induction holding with
    | nil => exact .nil
    | cons here later ih =>
      obtain ⟨other, apart⟩ := nodup_cons.mp apart
      refine pairwise_cons.mpr ⟨fun part' member e first e' second same => other ?_, ih apart⟩
      obtain ⟨g, among, holds⟩ := exists_left_of_mem later member
      refine mem_map.mpr ⟨g, among, ?_⟩
      rw [← holds.1 e' second, ← same, here.1 e first]
  · intro part member e first e' second
    have read {e : (Row × Store) × List Val} (here : e ∈ part) : e ∈ rows :=
      all.mem_iff.mp (mem_flatten.mpr ⟨part, member, here⟩)
    obtain ⟨g, _, holds⟩ := exists_left_of_mem holding member
    have sizes := (grouped.sized e (read first)).trans (grouped.sized e' (read second)).symm
    exact fun differ => told _ (inside e (read first)) _ (inside e' (read second)) sizes differ
      ((canonKeyList_eq_iff sizes).mp ((holds.1 e first).trans (holds.1 e' second).symm))

end

theorem addValue_seen (a : Accumulator) (kind : AggKind) (v : Val) (keys : List Str)
    : ({ a with seen := keys }).addValue kind v
      = (a.addValue kind v).map (fun a' => { a' with seen := keys }) := by
  cases kind with
  | count => rfl
  | sum =>
    cases v with
    | int n =>
      simp only [Accumulator.addValue, Accumulator.addSum]
      split
      · cases addInt a.intSum n <;> rfl
      · rfl
    | float f =>
      simp only [Accumulator.addValue, Accumulator.addSum]
      split <;> rfl
    | _ => rfl
  | avg =>
    simp only [Accumulator.addValue]
    cases toFloat v <;> rfl
  | min => rfl
  | max => rfl
  | collect => rfl

section

variable {ctx : Context} {spec : AggSpec} {arg : Expr} {vs : List Val} {a : Accumulator}

/-- The values that are counted are the first ones with each key. -/
theorem Takes.counts (distinct : spec.distinct = true) (argument : spec.arg = some arg)
    (takes : Takes ctx spec arg vs a)
    : Counts spec (firsts canonKey [] (vs.filter (fun v => !isNull v))) a
      ∧ ∀ key, key ∈ a.seen ↔ key ∈ (vs.filter (fun v => !isNull v)).map canonKey := by
  induction takes with
  | new => exact ⟨rfl, fun key => Iff.rfl⟩
  | @value vs a a' o v c earlier found ran ih =>
    obtain ⟨counts, seen⟩ := ih
    rw [Accumulator.add, argument] at ran
    replace ran := (read_bind_of_ok (reads_eval _ _ _ _) found).symm.trans ran
    rw [filter_append]
    by_cases null : isNull v = true
    · rw [if_pos null] at ran
      cases ran
      have skipped : [v].filter (fun v => !isNull v) = [] := by simp [null]
      rw [skipped, append_nil]
      exact ⟨counts, seen⟩
    · have fresh : [v].filter (fun v => !isNull v) = [v] := by simp [null]
      rw [if_neg null, if_pos distinct] at ran
      rw [fresh, firsts_snoc, map_append]
      by_cases known : canonKey v ∈ a.seen
      · rw [if_pos known] at ran
        cases ran
        rw [if_pos (.inr ((seen _).mp known)), append_nil]
        refine ⟨counts, fun key => ?_⟩
        rw [seen, mem_append, map_singleton, mem_singleton]
        constructor
        · exact .inl
        · rintro (old | rfl)
          · exact old
          · exact (seen _).mp known
      · rw [if_neg known, read_ofExcept, addValue_seen] at ran
        have new : ¬ (canonKey v ∈ [] ∨ canonKey v ∈ (vs.filter (fun v => !isNull v)).map canonKey) := by
          simpa [seen] using known
        rw [if_neg new]
        cases added : a.addValue spec.kind v with
        | error e =>
          rw [added] at ran
          cases ran
        | ok a₁ =>
          rw [added] at ran
          cases ran
          refine ⟨?_, fun key => ?_⟩
          · rw [Counts, foldlM_append, counts]
            change List.foldlM _ _ _ = _
            rw [foldlM_cons, addValue_seen, added]
            rfl
          · rw [mem_cons, seen, mem_append, map_singleton, mem_singleton, or_comm]

end

def numbered (n : Nat) : List ProjItem := (List.range n).map (fun i => ⟨.literal .null, List.replicate i 0⟩)

theorem exists_row {t : List Val} {n : Nat} (size : t.length = n)
    : ∃ r : Row, ((numbered n).map ProjItem.column).map (cell r) = t := by
  refine ⟨written (writtenOrder (numbered n) t), (carried_eq_iff (by simp [numbered, size])).mpr ?_⟩
  intro e member e' member' same
  obtain ⟨i, inside, rfl⟩ := getElem_of_mem member
  obtain ⟨j, inside', rfl⟩ := getElem_of_mem member'
  have index : i = j := by simpa [numbered] using congrArg List.length same
  subst index
  rfl

section

variable {ctx : Context} {S : Set (List Val)}

/-- In a UNION only tuples that do not differ may have one key. -/
theorem KeysTell.told (tells : KeysTell ctx S) : Told S := by
  intro t inside t' inside' sizes differ same
  obtain ⟨r, row⟩ := exists_row (rfl : t.length = t.length)
  obtain ⟨r', row'⟩ := exists_row sizes.symm
  generalize (numbered t.length).map ProjItem.column = columns at row row'
  have merges := tells.union columns [r, r'] (by simp [row, row', inside, inside'])
  -- the second row has the key of the first one, which is the only one that is kept
  have key : unionKey r' columns = unionKey r columns := by
    rw [unionKey, unionKey, row, row', (canonKeyList_eq_iff sizes).mpr same]
  have kept : firsts (unionKey · columns) [] [r, r'] = [r] := by simp [firsts, key]
  rw [distinctFrom_true, kept] at merges
  obtain ⟨rep, represents, apart⟩ := merges.both
  have first := mem_singleton.mp (represents r (by simp)).1
  have second := mem_singleton.mp (represents r' (by simp)).1
  exact apart r (by simp) r' (by simp) (by rwa [row, row']) (first.trans second.symm)

/-- Grouping, UNION and aggregates with DISTINCT tell the tuples of a set apart exactly when no two tuples of it
that differ have the same key: are alike in all columns, or overhang each other.
-/
theorem keysTell_iff (ctx : Context) (S : Set (List Val))
    : KeysTell ctx S
      ↔ ∀ t ∈ S, ∀ t' ∈ S, t.length = t'.length → TuplesDiffer t t' → ¬ SameKey t t' := by
  refine ⟨KeysTell.told, fun told => ⟨?_, ?_, ?_⟩⟩
  · intro groupKeys specs rows groups grouped inside
    exact parts_of_told told grouped inside
  · intro columns l inside
    rw [distinctFrom_true]
    exact mergesTuples_firsts told _ (fun r _ => List.length_map _) inside
  · intro spec arg vs a distinct argument takes inside
    refine ⟨_, (takes.counts distinct argument).1, ?_⟩
    refine mergesTuples_firsts told (fun v => [v]) (fun v _ => rfl) fun v member => ?_
    obtain ⟨among, valued⟩ := List.mem_filter.mp member
    exact inside v among (by simpa using valued)

end

/-- A bar in a string looks like the end of a column. -/
theorem not_keysTell_bar
    : ¬ KeysTell .bare (fun t =>
        t = [.str (lit "a|s:b"), .str (lit "c")] ∨ t = [.str (lit "a"), .str (lit "b|s:c")]) := by
  intro tells
  have differ : TuplesDiffer [.str (lit "a|s:b"), .str (lit "c")] [.str (lit "a"), .str (lit "b|s:c")] :=
    ⟨(.str (lit "a|s:b"), .str (lit "a")), List.mem_cons_self, by decide⟩
  refine tells.told _ (.inl rfl) _ (.inr rfl) rfl differ ((canonKeyList_eq_iff ?_).mp ?_)
  · rfl
  · decide

end Intreccio.Exec
