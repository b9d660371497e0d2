import Intreccio.Exec.Denotation

/-! The operators without an input refine the lists of their rows, and those with one input are
transducers of the rows they read.
-/

namespace Intreccio.Exec

open Kv Words Graph Ast Plan Program Pull List

section Scans

variable {s : Store}

variable {node : Option Node}

/-- A range scan goes through its stretches in order. -/
theorem nextInRange_nodes {segs segs' : List RangeSegment}
    (ran : (nextInRange segs).read s = .ok (node, segs'))
    : cursorNodes s (.ranges segs) = node.toList ++ cursorNodes s (.ranges segs')
      ∧ (node = none → segs' = []) := by
  fun_induction nextInRange segs with
  | case1 =>
    cases ran
    exact ⟨rfl, fun _ => rfl⟩
  | case2 stop more ih =>
    obtain ⟨same, ended⟩ := ih ran
    refine ⟨?_, ended⟩
    rw [← same]
    rfl
  | case3 k b rest stop more ih =>
    obtain ⟨⟨v, id⟩, parsed, ran⟩ := (read_bind_ok (reads_ofExcept _)).mp ran
    rw [read_ofExcept] at parsed
    dsimp only at ran
    have entry : (parsePropKey k).toOption = some (v, id) := by
      rw [parsed]
      rfl
    split at ran
    · rename_i stops
      obtain ⟨same, ended⟩ := ih ran
      refine ⟨?_, ended⟩
      rw [← same]
      simp [cursorNodes, segmentNodes, entry, stops]
    · rename_i goes
      obtain ⟨n, found, ran⟩ := (read_bind_ok (reads_getNode _)).mp ran
      cases ran
      refine ⟨?_, fun impossible => by cases impossible⟩
      simp [cursorNodes, segmentNodes, entry, goes, answer_of_read found]

theorem cursor_nodes {cur cur' : NodeCursor} (ran : cur.next.read s = .ok (node, cur'))
    : cursorNodes s cur = node.toList ++ cursorNodes s cur'
      ∧ (node = none → cursorNodes s cur' = [] ∧ cur'.next.read s = .ok (none, cur')) := by
  fun_cases NodeCursor.next cur with
  | case1 =>
    cases ran
    exact ⟨rfl, fun _ => ⟨rfl, rfl⟩⟩
  | case2 k b rest =>
    obtain ⟨n, entry, ran⟩ := (read_bind_ok (reads_ofExcept _)).mp ran
    rw [read_ofExcept] at entry
    cases ran
    refine ⟨?_, fun impossible => by cases impossible⟩
    simp [cursorNodes, entry, Except.toOption]
  | case3 =>
    cases ran
    exact ⟨rfl, fun _ => ⟨rfl, rfl⟩⟩
  | case4 k b rest =>
    obtain ⟨n, found, ran⟩ := (read_bind_ok (reads_nodeOfLabelKey _)).mp ran
    cases ran
    refine ⟨?_, fun impossible => by cases impossible⟩
    simp [cursorNodes, answer_of_read found]
  | case5 segs =>
    obtain ⟨⟨n, segs'⟩, found, ran⟩ := (read_bind_ok (reads_nextInRange _)).mp ran
    cases ran
    obtain ⟨same, ended⟩ := nextInRange_nodes found
    refine ⟨same, fun finished => ?_⟩
    rw [ended finished]
    exact ⟨rfl, rfl⟩

theorem source_nodes {nodes nodes' : NodeSource} (ran : nodes.next.read s = .ok (node, nodes'))
    : sourceNodes s nodes = node.toList ++ sourceNodes s nodes'
      ∧ (node = none → sourceNodes s nodes' = [] ∧ nodes'.next.read s = .ok (none, nodes')) := by
  match nodes with
  | .cursor cur =>
    obtain ⟨⟨n, cur'⟩, found, ran⟩ := (read_bind_ok (reads_cursor_next _)).mp ran
    cases ran
    obtain ⟨same, ended⟩ := cursor_nodes found
    refine ⟨same, fun finished => ?_⟩
    obtain ⟨empty, stays⟩ := ended finished
    exact ⟨empty, read_bind_of_ok (reads_cursor_next _) stays⟩
  | .ids [] =>
    cases ran
    exact ⟨rfl, fun _ => ⟨rfl, rfl⟩⟩
  | .ids (id :: rest) =>
    obtain ⟨n, found, ran⟩ := (read_bind_ok (reads_getNode _)).mp ran
    cases ran
    refine ⟨?_, fun impossible => by cases impossible⟩
    simp [sourceNodes, answer_of_read found]

end Scans

def Source.reading : Source → Bool
  | .schema _ _ => false
  | _ => true

theorem readsTo_next {ctx : Context} {src : Source} (reading : src.reading = true)
    : (src.next ctx).ReadsTo (fun r => r.2.reading = true) := by
  fun_cases Source.next ctx src with
  | case1 | case3 | case4 | case6 | case9 | case10 => exact reading
  | case2 var nodes =>
    refine .bind (reads_source_next _) (fun r _ => ?_)
    split <;> exact reading
  | case5 x id ids => exact .bind (reads_relSeekRows _ _) (fun _ _ => reading)
  | case7 => cases reading
  | case8 what => exact .bind (reads_listing _) (fun _ _ => reading)

theorem reads_next {ctx : Context} {src : Source} (reading : src.reading = true) : (src.next ctx).Reads :=
  (readsTo_next reading).reads

section Sources

variable (ctx : Context) (s : Store)

def sourceStep : Step Source Row Err := fun src => (src.next ctx).read s

def Source.rounds : Source → Nat
  | .relSeek _ ids _ => ids.length
  | .listing _ none => 1
  | _ => 0

variable {ctx s}

theorem source_refines : Refines (sourceStep ctx s) (fun src => src.reading = true) (Source.rows s) := by
  intro src reading
  match src with
  | .unit true => exact .of_turn rfl rfl ⟨rfl, rfl, rfl⟩
  | .unit false => exact .of_turn rfl rfl rfl
  | .nodeScan var nodes =>
    cases found : nodes.next.read s with
    | error e => exact .of_error (read_bind_of_error (reads_source_next _) found)
    | ok r =>
      obtain ⟨node, nodes'⟩ := r
      obtain ⟨same, ended⟩ := source_nodes found
      cases node with
      | none =>
        obtain ⟨empty, stays⟩ := ended rfl
        refine .of_turn (read_bind_of_ok (reads_source_next _) found) rfl
          ⟨?_, ?_, read_bind_of_ok (reads_source_next _) stays⟩
        · simp [Source.rows, same, empty]
        · simp [Source.rows, empty]
      | some n =>
        refine .of_turn (read_bind_of_ok (reads_source_next _) found) rfl ?_
        simp [Accounts, Source.rows, same, nodeRow]
  | .relSeek x ids (b :: rows) => exact .of_turn rfl rfl rfl
  | .relSeek x [] [] => exact .of_turn rfl rfl ⟨rfl, rfl, rfl⟩
  | .relSeek x (id :: ids) [] =>
    cases found : (relSeekRows x id).read s with
    | error e => exact .of_error (read_bind_of_error (reads_relSeekRows _ _) found)
    | ok rows =>
      refine .of_turn (read_bind_of_ok (reads_relSeekRows _ _) found) rfl ?_
      simp [Accounts, Source.rows, relRows, answer_of_read found]
  | .listing what none =>
    cases found : what.rows.read s with
    | error e => exact .of_error (read_bind_of_error (reads_listing _) found)
    | ok rows =>
      refine .of_turn (read_bind_of_ok (reads_listing _) found) rfl ?_
      simp [Accounts, Source.rows, listingRows, answer_of_read found]
  | .listing what (some []) => exact .of_turn rfl rfl ⟨rfl, rfl, rfl⟩
  | .listing what (some (b :: rows)) => exact .of_turn rfl rfl rfl

theorem source_halts {src : Source} (reading : src.reading = true) : Halts (sourceStep ctx s) src := by
  refine source_refines.halts Source.rounds (fun src src' reading ran => ?_) reading
  match src with
  | .unit true | .unit false => cases ran
  | .nodeScan var nodes =>
    obtain ⟨⟨node, nodes'⟩, _, ran⟩ := (read_bind_ok (reads_source_next _)).mp ran
    cases node <;> cases ran
  | .relSeek x ids (b :: rows) | .relSeek x [] [] => cases ran
  | .relSeek x (id :: ids) [] =>
    obtain ⟨rows, _, ran⟩ := (read_bind_ok (reads_relSeekRows _ _)).mp ran
    cases ran
    exact Nat.lt_succ_self _
  | .listing what none =>
    obtain ⟨rows, _, ran⟩ := (read_bind_ok (reads_listing _)).mp ran
    cases ran
    exact Nat.zero_lt_one
  | .listing what (some []) | .listing what (some (b :: rows)) => cases ran

end Sources

def FanOut.reading : FanOut → Bool
  | .merge _ => false
  | _ => true

/-- The operator does not write, nor do the reads that it still has to make. -/
def Unary.Reading : Unary → Prop
  | .fan kind pending _ => kind.reading = true ∧ ∀ read ∈ pending, read.Reads
  | .rowWrite _ _ => False
  | _ => True

theorem readsTo_spread {ctx : Context} {kind : FanOut} (reading : kind.reading = true) (b : Row) (c : Choices)
    : (kind.spread ctx b c).ReadsTo (fun pending => ∀ read ∈ pending, read.Reads) := by
  have mapped {α : Type} {hits : List α} {emit : α → Delayed} (each : ∀ h, (emit h).Reads)
      : ∀ read ∈ hits.map emit, read.Reads := by
    intro read member
    obtain ⟨h, _, rfl⟩ := mem_map.mp member
    exact each h
  cases kind with
  | expand e =>
    change (e.spread b).ReadsTo _
    unfold ExpandOp.spread
    split
    · exact trivial
    · exact .bind (reads_gather _ _) (fun hits _ => mapped (reads_emit e b))
  | varExpand e =>
    change (e.spreadTrails b).ReadsTo _
    unfold ExpandOp.spreadTrails
    split
    · exact trivial
    · exact .bind (reads_bfs _ _) (fun hits _ => mapped (reads_emitTrail e b))
  | shortestPath x spec =>
    change (spreadPaths x spec b).ReadsTo _
    unfold spreadPaths
    dsimp only
    split
    · exact fun _ member => absurd member not_mem_nil
    split
    · exact .bind (reads_shortestPaths _ _ _) (fun paths _ => mapped (reads_emitPath x b))
    · exact trivial
  | unwind expr asName =>
    refine .bind (reads_eval _ _ _ _) (fun v _ => ?_)
    split
    · exact fun _ member => absurd member not_mem_nil
    · exact mapped (fun v => reads_ret _)
    · exact trivial
  | merge m => cases reading

theorem readsTo_act {ctx : Context} {u : Unary} (reading : u.Reading) {p : Txn (Turn Row × Unary)}
    (acts : u.act ctx = some p)
    : p.ReadsTo (fun r => r.2.Reading) := by
  unfold Unary.act at acts
  split at acts <;> cases acts
  · rename_i kind read pending ch
    have left : Unary.Reading (.fan kind pending ch) :=
      ⟨reading.1, fun read member => reading.2 read (mem_cons_of_mem _ member)⟩
    refine .bind (reading.2 read mem_cons_self) (fun r _ => ?_)
    split <;> exact left
  · exact .bind (reads_ofExcept _) (fun _ _ => trivial)
  all_goals exact trivial

theorem reads_act {ctx : Context} {u : Unary} (reading : u.Reading) {p : Txn (Turn Row × Unary)}
    (acts : u.act ctx = some p)
    : p.Reads :=
  (readsTo_act reading acts).reads

theorem readsTo_feed {ctx : Context} {u : Unary} (reading : u.Reading) (b : Option Row)
    : (u.feed ctx b).ReadsTo (fun r => r.2.Reading) := by
  unfold Unary.feed
  split
  · exact .bind (readsTo_spread reading.1 _ _) (fun _ left => ⟨reading.1, left⟩)
  · exact .bind (reads_eval _ _ _ _) (fun _ _ => trivial)
  · refine .bind (reads_projectRow _ _ _ _) (fun _ _ => ?_)
    split <;> exact trivial
  · exact .bind (reads_ofExcept _) (fun _ _ => .bind (reads_addRow _ _ _ _ _ _) (fun _ _ => trivial))
  · exact .bind (reads_ofExcept _) (fun _ _ => trivial)
  · exact trivial
  · exact .bind (reads_sortRows _ _ _ _) (fun _ _ => trivial)
  · exact trivial
  · exact trivial
  · exact trivial
  · exact trivial
  · exact reading.elim
  · exact reading

theorem reads_feed {ctx : Context} {u : Unary} (reading : u.Reading) (b : Option Row)
    : (u.feed ctx b).Reads :=
  (readsTo_feed reading b).reads

section Operators

variable (ctx : Context) (s : Store)

def actOn (u : Unary) : Option (Except Err (Turn Row × Unary)) := (u.act ctx).map (·.read s)

def feedOn (u : Unary) (b : Option Row) : Except Err (Turn Row × Unary) := (u.feed ctx b).read s

def Unary.work : Unary → Nat
  | .fan _ pending _ => pending.length
  | .aggregate _ _ _ (some out) _ => out.length
  | .aggregate _ _ none none _ => 1
  | .sort _ rows true _ => rows.length
  | _ => 0

def Unary.closed : Unary → Prop
  | .aggregate _ _ _ (some _) _ => True
  | .sort _ _ true _ => True
  | _ => False

variable {ctx s} {u u' : Unary} {t : Turn Row}

@[simp] theorem act_aggregate_end {groupKeys aggs : List ProjItem} {groups : Option (List Group)}
    {ch : Choices}
    : Unary.act ctx (.aggregate groupKeys aggs groups (some []) ch)
      = some (return (.done, .aggregate groupKeys aggs groups (some []) ch)) := by
  cases groups <;> rfl

@[simp] theorem act_aggregate_row {groupKeys aggs : List ProjItem} {groups : Option (List Group)}
    {b : Row} {out : List Row} {ch : Choices}
    : Unary.act ctx (.aggregate groupKeys aggs groups (some (b :: out)) ch)
      = some (return (.row b, .aggregate groupKeys aggs groups (some out) ch)) := by
  cases groups <;> rfl

/-- What an operator does by itself takes from its work, and from its rows what it yields. -/
theorem act_law (reading : u.Reading) (ran : actOn ctx s u = some (.ok (t, u')))
    : u'.Reading ∧ match t with
      | .row b => u'.work < u.work ∧ ∀ l, u.rows ctx s l = b :: u'.rows ctx s l
      | .again => u'.work < u.work ∧ ∀ l, u.rows ctx s l = u'.rows ctx s l
      | .done => u' = u ∧ ∀ l, u.rows ctx s l = [] := by
  obtain ⟨p, acts, ran⟩ := Option.map_eq_some_iff.mp ran
  match u with
  | .fan kind (first :: pending) ch =>
    cases acts
    obtain ⟨r, found, ran⟩ := (read_bind_ok (reading.2 first mem_cons_self)).mp ran
    have reading' : Unary.Reading (.fan kind pending ch) :=
      ⟨reading.1, fun read member => reading.2 read (mem_cons_of_mem _ member)⟩
    cases r with
    | none | some b =>
      cases ran
      refine ⟨reading', Nat.lt_succ_self _, fun l => ?_⟩
      simp [Unary.rows, pendingRows, answer_of_read found]
  | .aggregate groupKeys aggs none none ch =>
    cases acts
    obtain ⟨specs, parsed, ran⟩ := (read_bind_ok (reads_ofExcept _)).mp ran
    rw [read_ofExcept] at parsed
    cases ran
    refine ⟨trivial, Nat.zero_lt_one, fun l => ?_⟩
    simp [Unary.rows, aggregateRows, parsed]
  | .aggregate groupKeys aggs groups (some []) ch =>
    rw [act_aggregate_end] at acts
    cases acts
    cases ran
    exact ⟨trivial, rfl, fun _ => rfl⟩
  | .aggregate groupKeys aggs groups (some (b :: out)) ch =>
    rw [act_aggregate_row] at acts
    cases acts
    cases ran
    exact ⟨trivial, Nat.lt_succ_self _, fun _ => rfl⟩
  | .sort keys [] true ch | .limit 0 =>
    cases acts
    cases ran
    exact ⟨trivial, rfl, fun _ => rfl⟩
  | .sort keys (b :: rows) true ch =>
    cases acts
    cases ran
    exact ⟨trivial, Nat.lt_succ_self _, fun _ => rfl⟩
  | .fan _ [] _ | .filter _ _ | .project _ _ _ _ | .aggregate _ _ (some _) none _ | .sort _ [] false _
  | .sort _ (_ :: _) false _ | .skip _ | .limit (_ + 1) | .rowWrite _ _ => cases acts

/-- What an operator makes of the next row of its input. -/
theorem feed_law {b : Row} (reading : u.Reading) (idle : u.act ctx = none)
    (ran : feedOn ctx s u (some b) = .ok (t, u'))
    : u'.Reading ∧ match t with
      | .row r => ∀ l, u.rows ctx s (b :: l) = r :: u'.rows ctx s l
      | .again => ∀ l, u.rows ctx s (b :: l) = u'.rows ctx s l
      | .done => False := by
  match u with
  | .fan kind [] ch =>
    have spread := (readsTo_spread reading.1 b ch.now : (kind.spread ctx b ch.now).ReadsTo _)
    obtain ⟨pending, found, ran⟩ := (read_bind_ok spread.reads).mp ran
    cases ran
    refine ⟨⟨reading.1, spread.answer found⟩, fun l => ?_⟩
    simp [Unary.rows, pendingRows, along, fanRows, answer_of_read found]
  | .filter pred ch =>
    obtain ⟨v, found, ran⟩ := (read_bind_ok (reads_eval _ _ _ _)).mp ran
    split at ran
    all_goals
      rename_i holds
      cases ran
      refine ⟨trivial, fun l => ?_⟩
      simp [Unary.rows, along, keepIf, answer_of_read found, holds]
  | .project items distinct seen ch =>
    obtain ⟨out, found, ran⟩ := (read_bind_ok (reads_projectRow _ _ _ _)).mp ran
    split at ran
    all_goals
      rename_i known
      cases ran
      refine ⟨trivial, fun l => ?_⟩
      simp [Unary.rows, along, projected, answer_of_read found, distinctFrom, known]
  | .aggregate groupKeys aggs (some groups) none ch =>
    obtain ⟨specs, parsed, ran⟩ := (read_bind_ok (reads_ofExcept _)).mp ran
    rw [read_ofExcept] at parsed
    obtain ⟨groups', found, ran⟩ := (read_bind_ok (reads_addRow _ _ _ _ _ _)).mp ran
    cases ran
    refine ⟨trivial, fun l => ?_⟩
    rw [Option.getD_some] at found
    simp [Unary.rows, aggregateRows, parsed, groupAll, answer_of_read found]
  | .sort keys rows false ch =>
    cases ran
    refine ⟨trivial, fun l => ?_⟩
    simp [Unary.rows]
  | .skip 0 | .skip (_ + 1) | .limit (_ + 1) =>
    cases ran
    exact ⟨trivial, fun _ => rfl⟩
  | .rowWrite w ch => exact reading.elim
  | .fan _ (_ :: _) _ | .aggregate _ _ none none _ | .sort _ [] true _ | .sort _ (_ :: _) true _
  | .limit 0 => cases idle
  | .aggregate _ _ _ (some []) _ | .aggregate _ _ _ (some (_ :: _)) _ => simp at idle

/-- What an operator does at the end of its input. -/
theorem end_law (reading : u.Reading) (idle : u.act ctx = none) (ran : feedOn ctx s u none = .ok (t, u'))
    : u'.Reading ∧ match t with
      | .row _ => False
      | .again => u'.closed ∧ u.rows ctx s [] = u'.rows ctx s []
      | .done => u.rows ctx s [] = [] ∧ u'.rows ctx s [] = [] ∧ u'.act ctx = none
          ∧ feedOn ctx s u' none = .ok (.done, u') := by
  match u with
  | .fan kind [] ch =>
    cases ran
    exact ⟨reading, rfl, rfl, rfl, rfl⟩
  | .filter pred ch | .project items distinct seen ch | .skip 0 | .skip (_ + 1) | .limit (_ + 1) =>
    cases ran
    exact ⟨trivial, rfl, rfl, rfl, rfl⟩
  | .aggregate groupKeys aggs (some groups) none ch =>
    obtain ⟨specs, parsed, ran⟩ := (read_bind_ok (reads_ofExcept _)).mp ran
    rw [read_ofExcept] at parsed
    cases ran
    refine ⟨trivial, trivial, ?_⟩
    simp [Unary.rows, aggregateRows, parsed, groupAll]
  | .sort keys rows false ch =>
    obtain ⟨rows', found, ran⟩ := (read_bind_ok (reads_sortRows _ _ _ _)).mp ran
    cases ran
    refine ⟨trivial, trivial, ?_⟩
    simp [Unary.rows, sorted, answer_of_read found]
  | .rowWrite w ch => exact reading.elim
  | .fan _ (_ :: _) _ | .aggregate _ _ none none _ | .sort _ [] true _ | .sort _ (_ :: _) true _
  | .limit 0 => cases idle
  | .aggregate _ _ _ (some []) _ | .aggregate _ _ _ (some (_ :: _)) _ => simp at idle

theorem idle_of_actOn (idle : actOn ctx s u = none) : u.act ctx = none :=
  Option.map_eq_none_iff.mp idle

theorem closed_law (shut : u.closed)
    : ∃ r, actOn ctx s u = some r ∧ ∀ t u', r = .ok (t, u') → t ≠ .done → u'.closed := by
  match u with
  | .aggregate groupKeys aggs groups (some []) ch =>
    exact ⟨_, congrArg _ act_aggregate_end, fun t u' ran _ => by cases ran; exact trivial⟩
  | .aggregate groupKeys aggs groups (some (b :: out)) ch =>
    exact ⟨_, congrArg _ act_aggregate_row, fun t u' ran _ => by cases ran; exact trivial⟩
  | .sort keys [] true ch | .sort keys (b :: rows) true ch =>
    exact ⟨_, rfl, fun t u' ran _ => by cases ran; exact trivial⟩
  | .fan _ _ _ | .filter _ _ | .project _ _ _ _ | .aggregate _ _ _ none _ | .sort _ _ false _ | .skip _
  | .limit _ | .rowWrite _ _ => exact shut.elim

/-- The operators with one input are transducers. -/
theorem unary_laws
    : Transducer (actOn ctx s) (feedOn ctx s) Unary.Reading (fun u l => u.rows ctx s l) Unary.work
        Unary.closed where
  act_row := fun u b u' reading ran => act_law reading ran
  act_again := fun u u' reading ran => act_law reading ran
  act_done := fun u u' reading ran => by
    obtain ⟨reading', rfl, empty⟩ := act_law reading ran
    exact ⟨reading', empty, empty, ran⟩
  feed_row := fun u b r u' reading idle ran => feed_law reading (idle_of_actOn idle) ran
  feed_again := fun u b u' reading idle ran => feed_law reading (idle_of_actOn idle) ran
  feed_going := fun u b u' reading idle ran => (feed_law reading (idle_of_actOn idle) ran).2
  end_row := fun u b u' reading idle ran => (end_law reading (idle_of_actOn idle) ran).2
  end_again := fun u u' reading idle ran => end_law reading (idle_of_actOn idle) ran
  end_done := fun u u' reading idle ran => by
    obtain ⟨reading', empty, empty', idle', ended⟩ := end_law reading (idle_of_actOn idle) ran
    exact ⟨reading', empty, empty', Option.map_eq_none_iff.mpr idle', ended⟩
  closed_act := fun _ shut => closed_law shut

end Operators

end Intreccio.Exec
