import Intreccio.Exec.Results

/-! The operators with one input in runs with writes (`internal/exec/exec.go`).
The operators below may change the store between two rows, so a row is known together with the store at the
moment it was yielded. An operator is described by what it has yielded for the rows it was fed so far.
-/

namespace Intreccio.Exec

open Kv Words Graph Ast Plan Program Pull List

section

variable {α β : Type} {R : α → β → Prop}

/-- What corresponds to a list with a chosen element has the corresponding element chosen. -/
theorem split_of_forall₂ {l : List α} {before after : List β} {b : β}
    (same : List.Forall₂ R l (before ++ b :: after))
    : ∃ before' a after', l = before' ++ a :: after' ∧ List.Forall₂ R before' before ∧ R a b := by
  have firsts := forall₂_take_append l before (b :: after) same
  have others := forall₂_drop_append l before (b :: after) same
  cases rest : l.drop before.length with
  | nil =>
    rw [rest] at others
    cases others
  | cons a after' =>
    rw [rest] at others
    obtain _ | ⟨here, _⟩ := others
    exact ⟨_, a, after', by rw [← rest, take_append_drop], firsts, here⟩

/-- Each element of one list corresponds to an element of the other. -/
theorem exists_left_of_mem {l : List α} {l' : List β} {b : β} (same : List.Forall₂ R l l') (member : b ∈ l')
    : ∃ a ∈ l, R a b := by
  obtain ⟨before, after, rfl⟩ := append_of_mem member
  obtain ⟨before', a, after', rfl, _, here⟩ := split_of_forall₂ same
  exact ⟨a, mem_append_right _ mem_cons_self, here⟩

end

/-- The rows that a plan has yielded, each with the store at that moment. -/
abbrev Yielded := List (Row × Store)

/-- Some turns of an iterator, of which the last found the end if it is said to have ended. -/
def Reads (ctx : Context) (x : Machine × Argument) (s : Store) (ins : Yielded) (ended : Bool)
    (y : Machine × Argument) (s' : Store) : Prop :=
  if ended then ∃ z mid, Runs (turn ctx) x s ins z mid ∧ (turn ctx z).run mid = (.ok (.done, y), s')
  else Runs (turn ctx) x s ins y s'

/-- The laws of an operator with one input. The invariant relates the rows that it was fed, whether it was told the
end of its input, the rows that it has yielded, the store at the moment and its state. When it reports the end,
what it has yielded is complete.
-/
structure Operates (ctx : Context) (inv : Yielded → Bool → Yielded → Store → Unary → Prop)
    (complete : Yielded → Bool → Yielded → Store → Prop) : Prop where
  reading : ∀ ins ended outs s u, inv ins ended outs s u → u.Reading
  act : ∀ ins ended outs s u p t u', inv ins ended outs s u → u.act ctx = some p → p.read s = .ok (t, u')
    → (t ≠ .done → inv ins ended (outs ++ yielded t s) s u') ∧ (t = .done → complete ins ended outs s)
  idle : ∀ ins ended outs s u, inv ins ended outs s u → u.act ctx = none
    → ended = false ∧ ∀ s', inv ins false outs s' u
  feed : ∀ ins outs u b s t u', inv ins false outs s u → u.act ctx = none
    → (u.feed ctx (some b)).read s = .ok (t, u')
    → t ≠ .done ∧ inv (ins ++ [(b, s)]) false (outs ++ yielded t s) s u'
  close : ∀ ins outs u s t u', inv ins false outs s u → u.act ctx = none → (u.feed ctx none).read s = .ok (t, u')
    → (t ≠ .done → inv ins true (outs ++ yielded t s) s u') ∧ (t = .done → complete ins true outs s)

section

variable {ctx : Context} {inv : Yielded → Bool → Yielded → Store → Unary → Prop}
  {complete : Yielded → Bool → Yielded → Store → Prop}

/-- A program that only reads leaves the store as it is. -/
theorem read_of_run {α : Type} {p : Txn α} {a : α} {s s' : Store} (reads : p.Reads) (ran : p.run s = (.ok a, s'))
    : p.read s = .ok a ∧ s' = s := by
  rw [reads.run_eq] at ran
  exact ⟨congrArg Prod.fst ran, (congrArg Prod.snd ran).symm⟩

/-- One turn of an operator: it acts alone, or its input takes a turn. -/
theorem Operates.turn (law : Operates ctx inv complete) {x : Machine × Argument} {s₀ : Store} {ins outs : Yielded}
    {ended : Bool} {input : Machine} {u : Unary} {a : Argument} {s s' : Store} {t : Turn Row}
    {y : Machine × Argument} (reads : Reads ctx x s₀ ins ended (input, a) s) (good : inv ins ended outs s u)
    (ran : (Exec.turn ctx (.unary input u, a)).run s = (.ok (t, y), s'))
    : ∃ input' u' a' ins' ended', y = (.unary input' u', a') ∧ Reads ctx x s₀ ins' ended' (input', a') s'
      ∧ (t ≠ .done → inv ins' ended' (outs ++ yielded t s') s' u')
      ∧ (t = .done → complete ins' ended' outs s') := by
  have reading := law.reading ins ended outs s u good
  change (step ctx (.unary input u) a).run s = _ at ran
  rw [step] at ran
  cases acts : u.act ctx with
  | some p =>
    rw [acts] at ran
    obtain ⟨⟨t', u'⟩, mid, acted, same⟩ := run_bind_ok.mp ran
    obtain ⟨acted, rfl⟩ := read_of_run (reads_act reading acts) acted
    cases same
    exact ⟨input, u', a, ins, ended, rfl, reads, law.act ins ended outs _ u p t u' good acts acted⟩
  | none =>
    rw [acts] at ran
    obtain ⟨rfl, stays⟩ := law.idle ins ended outs s u good acts
    obtain ⟨⟨t', input', a'⟩, mid, stepped, rest⟩ := run_bind_ok.mp ran
    cases t' with
    | row b =>
      obtain ⟨⟨t'', u'⟩, mid', fed, same⟩ := run_bind_ok.mp rest
      obtain ⟨fed, rfl⟩ := read_of_run (reads_feed reading _) fed
      cases same
      obtain ⟨going, good'⟩ := law.feed ins outs u b _ t u' (stays _) acts fed
      refine ⟨input', u', a', _, false, rfl, Runs.turn reads stepped (Turn.row_ne_done b), fun _ => good', fun ended => ?_⟩
      exact absurd ended going
    | again =>
      cases rest
      refine ⟨input', u, a', ins, false, rfl, ?_, fun _ => ?_, fun ended => absurd ended Turn.again_ne_done⟩
      · exact append_nil ins ▸ Runs.turn reads stepped Turn.again_ne_done
      · exact (append_nil outs).symm ▸ stays _
    | done =>
      obtain ⟨⟨t'', u'⟩, mid', fed, same⟩ := run_bind_ok.mp rest
      obtain ⟨fed, rfl⟩ := read_of_run (reads_feed reading _) fed
      cases same
      have closed := law.close ins outs u _ t u' (stays _) acts fed
      exact ⟨input', u', a', ins, true, rfl, ⟨_, _, reads, stepped⟩, closed⟩

/-- The invariant holds at every moment of a run, for what the input has yielded by then; by induction on the turns. -/
theorem Operates.runs (law : Operates ctx inv complete) {input : Machine} {u : Unary} {a : Argument} {s s' : Store}
    {outs : Yielded} {y : Machine × Argument} (good : inv [] false [] s u)
    (ran : Runs (Exec.turn ctx) (.unary input u, a) s outs y s')
    : ∃ input' u' a' ins ended, y = (.unary input' u', a') ∧ Reads ctx (input, a) s ins ended (input', a') s'
      ∧ inv ins ended outs s' u' := by
  induction ran with
  | start => exact ⟨input, u, a, [], false, rfl, Runs.start, good⟩
  | turn _ next going ih =>
    obtain ⟨input', u', a', ins, ended, rfl, reads, good⟩ := ih
    obtain ⟨input'', u'', a'', ins', ended', rfl, reads', good', _⟩ := law.turn reads good next
    exact ⟨input'', u'', a'', ins', ended', rfl, reads', good' going⟩

/-- What an operator has yielded when it reports its end is complete. -/
theorem Operates.finishes (law : Operates ctx inv complete) {input : Machine} {u : Unary} {a : Argument}
    {s s' : Store} {outs : Yielded} {y : Machine × Argument} (good : inv [] false [] s u)
    (ran : Reads ctx (.unary input u, a) s outs true y s')
    : ∃ input' u' a' ins ended, y = (.unary input' u', a') ∧ Reads ctx (input, a) s ins ended (input', a') s'
      ∧ complete ins ended outs s' := by
  obtain ⟨z, mid, runs, last⟩ := ran
  obtain ⟨input', u', a', ins, ended, rfl, reads, good⟩ := law.runs good runs
  obtain ⟨input'', u'', a'', ins', ended', rfl, reads', _, done⟩ := law.turn reads good last
  exact ⟨input'', u'', a'', ins', ended', rfl, reads', done rfl⟩

end

/-- All rows that the operator yields are outputs for the rows it was fed by then. -/
def Unary.Yields (ctx : Context) (u : Unary) (out : Yielded → Bool → Row → Prop) : Prop :=
  ∃ inv complete, Operates ctx inv complete ∧ (∀ s, inv [] false [] s u)
    ∧ ∀ ins ended outs s u', inv ins ended outs s u' → ∀ o ∈ outs, out ins ended o.1

/-- The row is one of those that were fed. -/
def Passed (ins : Yielded) (_ : Bool) (r : Row) : Prop := r ∈ ins.map Prod.fst

/-- The row that is made of the items and their values, written one after the other. -/
def written (l : List (ProjItem × Val)) : Row := l.foldl (fun b e => b.set e.1.column e.2) .empty

/-- The expression has the value on a row, at the moment the row was yielded. -/
def Value (ctx : Context) (o : Row × Store) (e : Expr) (v : Val) : Prop :=
  ∃ c, (eval ctx e o.1 c).read o.2 = .ok v

/-- The items have the values on a row. -/
abbrev Values (ctx : Context) (o : Row × Store) (items : List ProjItem) (vs : List Val) : Prop :=
  List.Forall₂ (fun it v => Value ctx o it.expr v) items vs

/-- The row has the values of the items for a row of the input. -/
def Projected (ctx : Context) (items : List ProjItem) (o : Row × Store) (r : Row) : Prop :=
  ∃ vs, Values ctx o items vs ∧ r = written (items.zip vs)

/-- The rows that are projected, without those that DISTINCT drops. -/
def ProjectedAll (ctx : Context) (items : List ProjItem) (distinct : Bool) (ins outs : Yielded) (all : List Row)
    : Prop :=
  List.Forall₂ (Projected ctx items) ins all ∧ outs.map Prod.fst = distinctFrom distinct (rowKey · items) [] all

/-- A projection of the items has projected all rows that it was fed. -/
def Projects (ctx : Context) (items : List ProjItem) (distinct : Bool) (ins : Yielded) (ended : Bool)
    (outs : Yielded) (_ : Store) (u : Unary) : Prop :=
  ended = false ∧ ∃ seen ch all, u = .project items distinct seen ch ∧ ProjectedAll ctx items distinct ins outs all
    ∧ ∀ key, key ∈ seen ↔ key ∈ all.map (rowKey · items)

/-- A sort collects the rows that it is fed, and yields them sorted once its input has ended. -/
def Sorts (ctx : Context) (keys : List SortKey) (ins : Yielded) (ended : Bool) (outs : Yielded) (s : Store)
    (u : Unary) : Prop :=
  (∃ ch, u = .sort keys (ins.map Prod.fst) false ch ∧ ended = false ∧ outs = [])
    ∨ ∃ rest ch c, u = .sort keys rest true ch ∧ ended = true
      ∧ (sortRows ctx keys (ins.map Prod.fst) c).read s = .ok (outs.map Prod.fst ++ rest)

/-- A SKIP has left out the first rows. -/
def Skips (n : Nat) (ins : Yielded) (ended : Bool) (outs : Yielded) (_ : Store) (u : Unary) : Prop :=
  ended = false ∧ u = .skip (n - ins.length) ∧ outs = ins.drop n

/-- A LIMIT has let all rows through, as long as they are not too many. -/
def Limits (n : Nat) (ins : Yielded) (ended : Bool) (outs : Yielded) (_ : Store) (u : Unary) : Prop :=
  ended = false ∧ u = .limit (n - ins.length) ∧ ins.length ≤ n ∧ outs = ins

section

variable {ctx : Context} {items : List ProjItem} {distinct : Bool} {o : Row × Store} {c : Choices}

/-- Evaluating the items on a row gives their values, by induction on the items. -/
theorem values_of_evalItems {vs : List Val} (ran : (evalItems ctx o.1 items c).read o.2 = .ok vs)
    : Values ctx o items vs := by
  induction items generalizing c vs with
  | nil =>
    cases ran
    exact .nil
  | cons it rest ih =>
    obtain ⟨v, first, ran⟩ := (read_bind_ok (reads_eval _ _ _ _)).mp ran
    obtain ⟨more, later, same⟩ := (read_bind_ok (reads_evalItems _ _ _ _)).mp ran
    cases same
    exact .cons ⟨c.now, first⟩ (ih later)

/-- The last row stays unless DISTINCT finds its key among those before, by induction on these. -/
theorem distinctFrom_snoc (key : Row → Str) (seen : List Str) (l : List Row) (r : Row)
    : distinctFrom distinct key seen (l ++ [r]) = distinctFrom distinct key seen l
      ++ if distinct = true ∧ (key r ∈ seen ∨ key r ∈ l.map key) then [] else [r] := by
  induction l generalizing seen with
  | nil => by_cases known : distinct = true ∧ key r ∈ seen <;> simp [distinctFrom, known]
  | cons b rest ih =>
    rw [cons_append, distinctFrom, distinctFrom]
    by_cases known : (distinct && decide (key b ∈ seen)) = true
    · rw [if_pos known, if_pos known, ih]
      simp only [Bool.and_eq_true, decide_eq_true_eq] at known
      by_cases same : key r = key b <;> simp [same, known]
    · rw [if_neg known, if_neg known, ih, cons_append]
      simp only [mem_cons, map_cons, or_assoc, or_left_comm]

/-- DISTINCT adds no rows. -/
theorem mem_of_mem_distinctFrom {key : Row → Str} {seen : List Str} {l : List Row} {r : Row}
    (member : r ∈ distinctFrom distinct key seen l)
    : r ∈ l := by
  induction l generalizing seen with
  | nil => cases member
  | cons b rest ih =>
    rw [distinctFrom] at member
    split at member
    · exact mem_cons_of_mem _ (ih member)
    · exact (mem_cons.mp member).elim (· ▸ mem_cons_self) (mem_cons_of_mem _ ∘ ih)

/-- A projection yields the rows of values for the rows of its input. -/
theorem projects_law (items : List ProjItem) (distinct : Bool)
    : Operates ctx (Projects ctx items distinct)
        (fun ins ended outs _ => ended = true ∧ ∃ all, ProjectedAll ctx items distinct ins outs all) where
  reading := by
    rintro ins ended outs s u ⟨_, seen, ch, all, rfl, _⟩
    trivial
  act := by
    rintro ins ended outs s u p t u' ⟨_, seen, ch, all, rfl, _⟩ acts
    cases acts
  idle := fun _ _ _ _ _ good _ => ⟨good.1, fun _ => good.1 ▸ good⟩
  feed := by
    rintro ins outs u b s t u' ⟨_, seen, ch, all, rfl, ⟨each, same⟩, keys⟩ idle ran
    obtain ⟨out, projected, ran⟩ := (read_bind_ok (reads_projectRow _ _ _ _)).mp ran
    obtain ⟨vs, values, made⟩ := (read_bind_ok (reads_evalItems _ _ _ _)).mp projected
    obtain rfl : written (items.zip vs) = out := Except.ok.inj made
    have here : Projected ctx items (b, s) (written (items.zip vs)) :=
      ⟨vs, values_of_evalItems (o := (b, s)) values, rfl⟩
    have each' := rel_append each (.cons here .nil)
    have known : distinctFrom distinct (rowKey · items) [] (all ++ [written (items.zip vs)]) = _ :=
      distinctFrom_snoc _ _ _ _
    simp only [not_mem_nil, false_or, ← keys] at known
    split at ran
    next dropped =>
      cases ran
      simp only [Bool.and_eq_true, decide_eq_true_eq] at dropped
      refine ⟨nofun, rfl, _, _, _, rfl, ⟨each', ?_⟩, fun key => ?_⟩
      · rw [known, if_pos dropped, append_nil]
        exact (congrArg _ (append_nil outs)).trans same
      · rw [keys, map_append, mem_append, map_singleton, mem_singleton]
        refine ⟨.inl, fun found => found.elim id ?_⟩
        rintro rfl
        exact (keys _).mp dropped.2
    next kept =>
      cases ran
      simp only [Bool.and_eq_true, decide_eq_true_eq] at kept
      refine ⟨nofun, rfl, _, _, _, rfl, ⟨each', ?_⟩, fun key => ?_⟩
      · rw [known, if_neg kept, map_append, same]
        rfl
      · rw [mem_cons, keys, map_append, mem_append, map_singleton, mem_singleton, or_comm]
  close := by
    rintro ins outs u s t u' ⟨_, seen, ch, all, rfl, projected, keys⟩ idle ran
    cases ran
    exact ⟨fun going => absurd rfl going, fun _ => ⟨rfl, all, projected⟩⟩

/-- A sort yields the rows of its input in the order of their keys at the end of the input. -/
theorem sorts_law (keys : List SortKey)
    : Operates ctx (Sorts ctx keys) (fun ins ended outs s => ended = true
        ∧ ∃ c, (sortRows ctx keys (ins.map Prod.fst) c).read s = .ok (outs.map Prod.fst)) where
  reading := by
    rintro ins ended outs s u (⟨ch, rfl, _⟩ | ⟨rest, ch, c, rfl, _⟩)
    · trivial
    · trivial
  act := by
    rintro ins ended outs s u p t u' (⟨ch, rfl, _⟩ | ⟨rest, ch, c, rfl, rfl, sorted⟩) acts ran
    · cases mapped : ins.map Prod.fst <;> rw [mapped] at acts <;> cases acts
    · cases rest with
      | nil =>
        cases acts
        cases ran
        rw [append_nil] at sorted
        exact ⟨fun going => absurd rfl going, fun _ => ⟨rfl, c, sorted⟩⟩
      | cons b rest =>
        cases acts
        cases ran
        refine ⟨fun _ => .inr ⟨rest, ch, c, rfl, rfl, ?_⟩, nofun⟩
        rw [sorted, map_append, append_assoc]
        rfl
  idle := by
    rintro ins ended outs s u (⟨ch, rfl, rfl, rfl⟩ | ⟨rest, ch, c, rfl, _⟩) idle
    · exact ⟨rfl, fun _ => .inl ⟨ch, rfl, rfl, rfl⟩⟩
    · cases rest <;> cases idle
  feed := by
    rintro ins outs u b s t u' (⟨ch, rfl, _, rfl⟩ | ⟨rest, ch, c, rfl, impossible, _⟩) idle ran
    · cases ran
      exact ⟨nofun, .inl ⟨ch, by rw [map_append]; rfl, rfl, rfl⟩⟩
    · cases impossible
  close := by
    rintro ins outs u s t u' (⟨ch, rfl, _, rfl⟩ | ⟨rest, ch, c, rfl, impossible, _⟩) idle ran
    · obtain ⟨sorted, done, same⟩ := (read_bind_ok (reads_sortRows _ _ _ _)).mp ran
      cases same
      exact ⟨fun _ => .inr ⟨sorted, ch, ch, rfl, rfl, done⟩, nofun⟩
    · cases impossible

/-- A SKIP yields the rows of its input but for the first ones. -/
theorem skips_law (n : Nat)
    : Operates ctx (Skips n) (fun ins ended outs _ => ended = true ∧ outs = ins.drop n) where
  reading := by
    rintro ins ended outs s u ⟨_, rfl, _⟩
    trivial
  act := by
    rintro ins ended outs s u p t u' ⟨_, rfl, _⟩ acts
    cases acts
  idle := fun _ _ _ _ _ good _ => ⟨good.1, fun _ => good.1 ▸ good⟩
  feed := by
    rintro ins outs u b s t u' ⟨_, rfl, rfl⟩ idle ran
    by_cases few : ins.length < n
    · obtain ⟨left, wanted⟩ : ∃ left, n - ins.length = left + 1 := ⟨n - ins.length - 1, by omega⟩
      rw [wanted] at ran
      cases ran
      refine ⟨nofun, rfl, congrArg Unary.skip ?_, ?_⟩
      · simp only [length_append, length_singleton]
        omega
      · rw [drop_eq_nil_of_le (Nat.le_of_lt few), drop_eq_nil_of_le (by simpa using Nat.succ_le_of_lt few)]
        rfl
    · have none' : n - ins.length = 0 := by omega
      rw [none'] at ran
      cases ran
      refine ⟨nofun, rfl, congrArg Unary.skip ?_, ?_⟩
      · simp only [length_append, length_singleton]
        omega
      · rw [drop_append_of_le_length (Nat.le_of_not_lt few)]
        rfl
  close := by
    rintro ins outs u s t u' ⟨_, rfl, rfl⟩ idle ran
    cases left : n - ins.length <;> rw [left] at ran <;> cases ran <;>
      exact ⟨fun going => absurd rfl going, fun _ => ⟨rfl, rfl⟩⟩

/-- A LIMIT yields the first rows of its input, and does not read further than these. -/
theorem limits_law (n : Nat)
    : Operates ctx (Limits n) (fun ins ended outs _ => outs = ins ∧ ins.length ≤ n ∧ (ended = true ∨ ins.length = n)) where
  reading := by
    rintro ins ended outs s u ⟨_, rfl, _⟩
    trivial
  act := by
    rintro ins ended outs s u p t u' ⟨_, rfl, few, rfl⟩ acts ran
    cases left : n - outs.length with
    | zero =>
      rw [left] at acts
      cases acts
      cases ran
      exact ⟨fun going => absurd rfl going, fun _ => ⟨rfl, few, .inr (by omega)⟩⟩
    | succ more =>
      rw [left] at acts
      cases acts
  idle := fun _ _ _ _ _ good _ => ⟨good.1, fun _ => good.1 ▸ good⟩
  feed := by
    rintro ins outs u b s t u' ⟨_, rfl, few, rfl⟩ idle ran
    have wanted : outs.length ≠ n := by
      intro all
      rw [show n - outs.length = 0 by omega] at idle
      cases idle
    cases ran
    refine ⟨nofun, rfl, congrArg Unary.limit ?_, ?_, rfl⟩
    · simp only [length_append, length_singleton]
      omega
    · simp only [length_append, length_singleton]
      omega
  close := by
    rintro ins outs u s t u' ⟨_, rfl, few, rfl⟩ idle ran
    cases ran
    exact ⟨fun going => absurd rfl going, fun _ => ⟨rfl, few, .inl rfl⟩⟩

/-- A projection yields rows of values for rows that it was fed. -/
theorem yields_project (items : List ProjItem) (distinct : Bool) (ch : Choices)
    : (Unary.project items distinct [] ch).Yields ctx (fun ins _ r => ∃ o ∈ ins, Projected ctx items o r) := by
  refine ⟨_, _, projects_law items distinct, fun s => ⟨rfl, [], ch, [], rfl, ⟨.nil, rfl⟩, fun key => Iff.rfl⟩, ?_⟩
  rintro ins ended outs s u' ⟨_, _, _, all, _, ⟨each, same⟩, _⟩ o member
  have kept : o.1 ∈ distinctFrom distinct (rowKey · items) [] all := same ▸ mem_map_of_mem member
  exact exists_left_of_mem each (mem_of_mem_distinctFrom kept)

/-- ORDER BY yields rows that it was fed. -/
theorem yields_sort (keys : List SortKey) (ch : Choices)
    : (Unary.sort keys [] false ch).Yields ctx Passed := by
  refine ⟨_, _, sorts_law keys, fun s => .inl ⟨ch, rfl, rfl, rfl⟩, ?_⟩
  rintro ins ended outs s u' (⟨_, _, _, rfl⟩ | ⟨rest, _, c, _, _, sorted⟩) o member
  · cases member
  · have among := (readsTo_sortRows ctx keys c fun r (fed : r ∈ ins.map Prod.fst) => fed).answer sorted
    exact among o.1 (mem_append_left _ (mem_map_of_mem member))

/-- SKIP yields rows that it was fed. -/
theorem yields_skip (n : Nat) : (Unary.skip n).Yields ctx Passed := by
  refine ⟨_, _, skips_law n, fun s => ⟨rfl, rfl, drop_nil.symm⟩, ?_⟩
  rintro ins ended outs s u' ⟨_, _, rfl⟩ o member
  exact mem_map_of_mem (mem_of_mem_drop member)

/-- LIMIT yields rows that it was fed. -/
theorem yields_limit (n : Nat) : (Unary.limit n).Yields ctx Passed := by
  refine ⟨_, _, limits_law n, fun s => ⟨rfl, rfl, Nat.zero_le n, rfl⟩, ?_⟩
  rintro ins ended outs s u' ⟨_, _, _, rfl⟩ o member
  exact mem_map_of_mem member

end

end Intreccio.Exec
