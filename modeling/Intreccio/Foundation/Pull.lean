import Mathlib.Data.List.Basic

/-! Pull iterators that work in turns.
A turn yields a row, reports the end, or goes round again. An iterator refines a list when
every row it yields is the next one of the list and the end comes with the list used up; if it
also halts, enough turns answer every call.
-/

namespace Kv

open List

inductive Turn (ρ : Type) where
  | row (b : ρ)
  | again
  | done

def Turn.rows {ρ : Type} : Turn ρ → List ρ
  | .row b => [b]
  | .again => []
  | .done => []

theorem Turn.row_ne_done {ρ : Type} (b : ρ) : Turn.row b ≠ .done := by
  intro same
  cases same

theorem Turn.again_ne_done {ρ : Type} : (Turn.again : Turn ρ) ≠ .done := by
  intro same
  cases same

namespace Pull

variable {σ ρ ε : Type}

section Calls

variable {m : Type → Type} [Monad m]

/-- One call: turns until there is a row or the end. It ends in `again` when the turns run out. -/
def next (step : σ → m (Turn ρ × σ)) : Nat → σ → m (Turn ρ × σ)
  | 0, x => return (.again, x)
  | turns + 1, x => do
      match ← step x with
      | (.again, x) => next step turns x
      | (.row b, x) => return (.row b, x)
      | (.done, x) => return (.done, x)

/-- The answers of `k` calls, `none` for the end; nothing when the turns of a call run out. -/
def calls (step : σ → m (Turn ρ × σ)) (turns : Nat) : Nat → σ → m (Option (List (Option ρ)))
  | 0, _ => return some []
  | k + 1, x => do
      match ← next step turns x with
      | (.row b, x) => do
          let more ← calls step turns k x
          return more.map (some b :: ·)
      | (.done, x) => do
          let more ← calls step turns k x
          return more.map (none :: ·)
      | (.again, _) => return none

end Calls

/-- The first `k` answers of an iterator over a list. -/
def answers (rows : List ρ) (k : Nat) : List (Option ρ) :=
  (rows.map some ++ List.replicate k none).take k

@[simp] theorem answers_zero (rows : List ρ) : answers rows 0 = [] := by
  simp [answers]

@[simp] theorem answers_nil (k : Nat) : answers ([] : List ρ) k = List.replicate k none := by
  simp [answers]

@[simp] theorem answers_cons (b : ρ) (rows : List ρ) (k : Nat)
    : answers (b :: rows) (k + 1) = some b :: answers rows k := by
  simp only [answers, map_cons, cons_append, take_succ_cons, List.cons.injEq,
    true_and]
  rw [take_append, take_append, take_replicate, take_replicate]
  congr 2
  omega

abbrev Step (σ ρ ε : Type) := σ → Except ε (Turn ρ × σ)

variable (step : Step σ ρ ε)

/-- Only finitely many turns come before the end or an error. -/
inductive Halts : σ → Prop
  | intro (x : σ) (later : ∀ t x', step x = .ok (t, x') → t ≠ .done → Halts x') : Halts x

variable {step}

/-- An iterator that is driven by another one halts when that one does: each turn leads to an
iterator that is known to halt, does work that is bounded on its own, or takes a turn of the
driving iterator.
-/
theorem Halts.driven {δ : Type} {drive : Step δ ρ ε} (linked : δ → σ → Prop) (work : σ → Nat)
    (turn : ∀ d x t x', Halts drive d → linked d x → step x = .ok (t, x') → t ≠ .done
      → Halts step x' ∨ (linked d x' ∧ work x' < work x)
        ∨ ∃ t' d', drive d = .ok (t', d') ∧ t' ≠ .done ∧ linked d' x')
    {d : δ} {x : σ} (driving : Halts drive d) (start : linked d x)
    : Halts step x := by
  induction driving generalizing x with
  | intro d later ih =>
    -- within one turn of the driving iterator, the remaining work bounds the turns
    generalize bound : work x = n
    induction n using Nat.strongRecOn generalizing x with
    | _ n own =>
      refine .intro x (fun t x' ran going => ?_)
      rcases turn d x t x' (.intro d later) start ran going with
        known | ⟨same, less⟩ | ⟨t', d', ran', going', moved⟩
      · exact known
      · exact own (work x') (bound ▸ less) same rfl
      · exact ih t' d' ran' going' moved

/-- What a turn from `x` says about the rows that are left; an iterator at its end stays there. -/
structure Turned (step : Step σ ρ ε) (inv : σ → Prop) (rows : σ → List ρ) (x : σ) : Prop where
  row : ∀ b x', step x = .ok (.row b, x') → inv x' ∧ rows x = b :: rows x'
  again : ∀ x', step x = .ok (.again, x') → inv x' ∧ rows x = rows x'
  done : ∀ x', step x = .ok (.done, x') → inv x' ∧ rows x = [] ∧ rows x' = [] ∧ step x' = .ok (.done, x')

/-- What the outcome of a turn from `x` says about the rows that are left. -/
def Accounts (step : Step σ ρ ε) (rows : σ → List ρ) (x : σ) : Turn ρ → σ → Prop
  | .row b, x' => rows x = b :: rows x'
  | .again, x' => rows x = rows x'
  | .done, x' => rows x = [] ∧ rows x' = [] ∧ step x' = .ok (.done, x')

variable {t : Turn ρ}

section

variable {inv : σ → Prop} {rows : σ → List ρ} {x x' : σ}

theorem Turned.of_ok
    (account : ∀ t x', step x = .ok (t, x') → inv x' ∧ Accounts step rows x t x')
    : Turned step inv rows x where
  row := fun b x' ran => account (.row b) x' ran
  again := fun x' ran => account .again x' ran
  done := fun x' ran => account .done x' ran

theorem Turned.ok (turned : Turned step inv rows x) (ran : step x = .ok (t, x'))
    : inv x' ∧ Accounts step rows x t x' := by
  cases t with
  | row b => exact turned.row b x' ran
  | again => exact turned.again x' ran
  | done => exact turned.done x' ran

theorem Turned.of_turn (turn : step x = .ok (t, x')) (inv' : inv x') (account : Accounts step rows x t x')
    : Turned step inv rows x :=
  .of_ok fun _ _ ran => by
    cases turn.symm.trans ran
    exact ⟨inv', account⟩

theorem Turned.of_error {e : ε} (turn : step x = .error e) : Turned step inv rows x where
  row := fun _ _ ran => by cases turn.symm.trans ran
  again := fun _ ran => by cases turn.symm.trans ran
  done := fun _ ran => by cases turn.symm.trans ran

end

/-- Every turn from an invariant state accounts for the rows. -/
def Refines (step : Step σ ρ ε) (inv : σ → Prop) (rows : σ → List ρ) : Prop :=
  ∀ x, inv x → Turned step inv rows x

/-- An iterator that refines a list halts when it cannot go round for ever: between two rows, some
work goes down.
-/
theorem Refines.halts {inv : σ → Prop} {rows : σ → List ρ} (refines : Refines step inv rows)
    (work : σ → Nat) (less : ∀ x x', inv x → step x = .ok (.again, x') → work x' < work x) {x : σ}
    (start : inv x)
    : Halts step x := by
  generalize bound : (rows x).length = n
  induction n using Nat.strongRecOn generalizing x with
  | _ n ih =>
    generalize bound' : work x = k
    induction k using Nat.strongRecOn generalizing x with
    | _ k own =>
      refine .intro x (fun t x' ran going => ?_)
      cases t with
      | row b =>
        obtain ⟨inv', left⟩ := (refines x start).row b x' ran
        refine ih _ ?_ inv' rfl
        rw [← bound, left, length_cons]
        exact Nat.lt_succ_self _
      | again =>
        obtain ⟨inv', left⟩ := (refines x start).again x' ran
        exact own (work x') (bound' ▸ less x x' start ran) inv' (left ▸ bound) rfl
      | done => exact absurd rfl going

section Equations

variable {turns k : Nat} {x x' : σ} {b : ρ} {e : ε}

theorem next_row (turn : step x = .ok (.row b, x')) : next step (turns + 1) x = .ok (.row b, x') := by
  rw [next, turn]
  rfl

theorem next_done (turn : step x = .ok (.done, x')) : next step (turns + 1) x = .ok (.done, x') := by
  rw [next, turn]
  rfl

theorem next_again (turn : step x = .ok (.again, x')) : next step (turns + 1) x = next step turns x' := by
  rw [next, turn]
  rfl

theorem next_error (turn : step x = .error e) : next step (turns + 1) x = .error e := by
  rw [next, turn]
  rfl

theorem calls_row (answer : next step turns x = .ok (.row b, x'))
    : calls step turns (k + 1) x = (calls step turns k x').map (Option.map (some b :: ·)) := by
  rw [calls, answer]
  change (calls step turns k x').bind (fun more => .ok (more.map (some b :: ·))) = _
  cases calls step turns k x' <;> rfl

theorem calls_end (answer : next step turns x = .ok (.done, x'))
    : calls step turns (k + 1) x = (calls step turns k x').map (Option.map (none :: ·)) := by
  rw [calls, answer]
  change (calls step turns k x').bind (fun more => .ok (more.map (none :: ·))) = _
  cases calls step turns k x' <;> rfl

theorem calls_error (answer : next step turns x = .error e) : calls step turns (k + 1) x = .error e := by
  rw [calls, answer]
  rfl

theorem calls_late (answer : next step turns x = .ok (.again, x'))
    : calls step turns (k + 1) x = .ok none := by
  rw [calls, answer]
  rfl

/-- Calls only depend on the state through the first answer. -/
theorem calls_congr {y : σ} (same : next step turns x = next step turns y)
    : calls step turns (k + 1) x = calls step turns (k + 1) y := by
  rw [calls, calls, same]

end Equations

theorem next_more {turns : Nat} {x : σ} (answered : ∀ x', next step turns x ≠ .ok (.again, x'))
    : next step (turns + 1) x = next step turns x := by
  induction turns generalizing x with
  | zero => exact absurd rfl (answered x)
  | succ turns ih =>
    cases turn : step x with
    | error e => rw [next_error turn, next_error turn]
    | ok answer =>
      obtain ⟨t, x'⟩ := answer
      cases t with
      | row b => rw [next_row turn, next_row turn]
      | done => rw [next_done turn, next_done turn]
      | again =>
        rw [next_again turn] at answered
        rw [next_again turn, next_again turn, ih answered]

/-- At its end, an iterator answers every call with the end. -/
theorem calls_done {turns : Nat} {x : σ} (ended : step x = .ok (.done, x)) (k : Nat)
    : calls step (turns + 1) k x = .ok (some (List.replicate k none)) := by
  induction k with
  | zero => rfl
  | succ k ih =>
    rw [calls_end (next_done ended), ih]
    rfl

/-- What is expected of a sequence of calls: an error, or the answers of a list. -/
def Answers (step : Step σ ρ ε) (turns k : Nat) (x : σ) (rows : List ρ) : Prop :=
  (∃ e, calls step turns k x = .error e) ∨ calls step turns k x = .ok (some (answers rows k))

theorem Answers.in_time {turns : Nat} {x : σ} {rows : List ρ} (answered : Answers step turns 1 x rows)
    (x' : σ)
    : next step turns x ≠ .ok (.again, x') := by
  intro late
  rcases answered with ⟨e, failed⟩ | ran
  · rw [calls_late late] at failed
    cases failed
  · rw [calls_late late] at ran
    cases ran

theorem Answers.row {turns k : Nat} {x x' : σ} {b : ρ} {rows : List ρ}
    (answer : next step turns x = .ok (.row b, x')) (rest : Answers step turns k x' rows)
    : Answers step turns (k + 1) x (b :: rows) := by
  rcases rest with ⟨e, failed⟩ | ran
  · exact .inl ⟨e, by rw [calls_row answer, failed]; rfl⟩
  · exact .inr (by rw [calls_row answer, ran, answers_cons]; rfl)

/-- An iterator that refines a list and halts answers every sequence of calls, unless it
fails: its rows are those of the list, in order, and after them it stays at the end.
-/
theorem Refines.calls_eq {inv : σ → Prop} {rows : σ → List ρ} (refines : Refines step inv rows)
    {x : σ} (halts : Halts step x) (start : inv x)
    : ∃ n, ∀ turns ≥ n, ∀ k, Answers step turns k x (rows x) := by
  induction halts with
  | intro x _ ih =>
    have none_asked : ∀ turns, Answers step turns 0 x (rows x) := fun turns =>
      .inr (by rw [answers_zero]; rfl)
    cases turn : step x with
    | error e =>
      refine ⟨1, fun turns enough k => ?_⟩
      obtain ⟨turns, rfl⟩ := Nat.exists_eq_add_of_le' enough
      cases k with
      | zero => exact none_asked _
      | succ k => exact .inl ⟨e, calls_error (next_error turn)⟩
    | ok answer =>
      obtain ⟨t, x'⟩ := answer
      cases t with
      | done =>
        obtain ⟨_, empty, _, ended⟩ := (refines x start).done x' turn
        refine ⟨1, fun turns enough k => ?_⟩
        obtain ⟨turns, rfl⟩ := Nat.exists_eq_add_of_le' enough
        cases k with
        | zero => exact none_asked _
        | succ k =>
          refine .inr ?_
          rw [calls_end (next_done turn), calls_done ended, empty, answers_nil]
          rfl
      | row b =>
        obtain ⟨inv', left⟩ := (refines x start).row b x' turn
        obtain ⟨n, later⟩ := ih (.row b) x' turn (by simp) inv'
        refine ⟨n + 1, fun turns enough k => ?_⟩
        cases k with
        | zero => exact none_asked _
        | succ k =>
          obtain ⟨turns, rfl⟩ := Nat.exists_eq_add_of_le' (Nat.le_trans (Nat.le_add_left 1 n) enough)
          rw [left]
          exact Answers.row (next_row turn) (later (turns + 1) (by omega) k)
      | again =>
        obtain ⟨inv', left⟩ := (refines x start).again x' turn
        obtain ⟨n, later⟩ := ih .again x' turn (by simp) inv'
        refine ⟨n + 1, fun turns enough k => ?_⟩
        cases k with
        | zero => exact none_asked _
        | succ k =>
          obtain ⟨turns, rfl⟩ := Nat.exists_eq_add_of_le' (Nat.le_trans (Nat.le_add_left 1 n) enough)
          -- the turn that went round leaves one turn less for this call, which is enough
          have in_time := (later turns (by omega) 1).in_time
          have same : next step (turns + 1) x = next step (turns + 1) x' := by
            rw [next_again turn, next_more in_time]
          have rest := later (turns + 1) (by omega) (k + 1)
          rw [left]
          rwa [Answers, calls_congr same]

section Transducers

variable {υ : Type} (step : Step σ ρ ε) (act : υ → Option (Except ε (Turn ρ × υ)))
  (feed : υ → Option ρ → Except ε (Turn ρ × υ))

/-- An iterator behind a transducer: the transducer acts on its own while it can, and is fed the
next row of the iterator, or its end, when it cannot.
-/
def drive : Step (σ × υ) ρ ε := fun (x, u) =>
  match act u with
  | some r => r.map (fun (t, u) => (t, x, u))
  | none =>
    match step x with
    | .error e => .error e
    | .ok (.row b, x) => (feed u (some b)).map (fun (t, u) => (t, x, u))
    | .ok (.again, x) => .ok (.again, x, u)
    | .ok (.done, x) => (feed u none).map (fun (t, u) => (t, x, u))

/-- The laws of a transducer that makes `out u l` of the rows `l` that it still has to read. It
does not end before its input does unless it ends by itself, and after the end of its input it
only acts by itself.
-/
structure Transducer (good : υ → Prop) (out : υ → List ρ → List ρ) (work : υ → Nat)
    (closed : υ → Prop) : Prop where
  act_row : ∀ u b u', good u → act u = some (.ok (.row b, u'))
    → good u' ∧ work u' < work u ∧ ∀ l, out u l = b :: out u' l
  act_again : ∀ u u', good u → act u = some (.ok (.again, u'))
    → good u' ∧ work u' < work u ∧ ∀ l, out u l = out u' l
  act_done : ∀ u u', good u → act u = some (.ok (.done, u'))
    → good u' ∧ (∀ l, out u l = []) ∧ (∀ l, out u' l = []) ∧ act u' = some (.ok (.done, u'))
  feed_row : ∀ u b r u', good u → act u = none → feed u (some b) = .ok (.row r, u')
    → good u' ∧ ∀ l, out u (b :: l) = r :: out u' l
  feed_again : ∀ u b u', good u → act u = none → feed u (some b) = .ok (.again, u')
    → good u' ∧ ∀ l, out u (b :: l) = out u' l
  feed_going : ∀ u b u', good u → act u = none → feed u (some b) ≠ .ok (.done, u')
  end_row : ∀ u b u', good u → act u = none → feed u none ≠ .ok (.row b, u')
  end_again : ∀ u u', good u → act u = none → feed u none = .ok (.again, u')
    → good u' ∧ closed u' ∧ out u [] = out u' []
  end_done : ∀ u u', good u → act u = none → feed u none = .ok (.done, u')
    → good u' ∧ out u [] = [] ∧ out u' [] = [] ∧ act u' = none ∧ feed u' none = .ok (.done, u')
  closed_act : ∀ u, closed u → ∃ r, act u = some r ∧ ∀ t u', r = .ok (t, u') → t ≠ .done → closed u'

variable {step act feed} {good closed : υ → Prop} {out : υ → List ρ → List ρ} {work : υ → Nat}

variable {u : υ}

theorem drive_cases {x : σ} {y : σ × υ} (ran : drive step act feed (x, u) = .ok (t, y))
    : (∃ u', act u = some (.ok (t, u')) ∧ y = (x, u'))
      ∨ act u = none
        ∧ ((∃ b x' u', step x = .ok (.row b, x') ∧ feed u (some b) = .ok (t, u') ∧ y = (x', u'))
          ∨ (∃ x', step x = .ok (.again, x') ∧ t = .again ∧ y = (x', u))
          ∨ ∃ x' u', step x = .ok (.done, x') ∧ feed u none = .ok (t, u') ∧ y = (x', u')) := by
  have mapped {x : σ} {r : Except ε (Turn ρ × υ)}
      (ran : r.map (fun (t, u) => (t, x, u)) = .ok (t, y)) : ∃ u', r = .ok (t, u') ∧ y = (x, u') := by
    cases r with
    | error e => cases ran
    | ok answer =>
      cases ran
      exact ⟨answer.2, rfl, rfl⟩
  unfold drive at ran
  dsimp only at ran
  split at ran
  · rename_i r acts
    obtain ⟨u', rfl, moved⟩ := mapped ran
    exact .inl ⟨u', acts, moved⟩
  · rename_i idle
    refine .inr ⟨idle, ?_⟩
    split at ran
    · cases ran
    · rename_i b x' turn
      obtain ⟨u', fed, moved⟩ := mapped ran
      exact .inl ⟨b, x', u', turn, fed, moved⟩
    · rename_i x' turn
      cases ran
      exact .inr (.inl ⟨x', turn, rfl, rfl⟩)
    · rename_i x' turn
      obtain ⟨u', fed, moved⟩ := mapped ran
      exact .inr (.inr ⟨x', u', turn, fed, moved⟩)

theorem drive_act {x : σ} {u u' : υ} (acts : act u = some (.ok (t, u')))
    : drive step act feed (x, u) = .ok (t, x, u') := by
  simp only [drive, acts]
  rfl

theorem drive_row {x x' : σ} {b : ρ} {u u' : υ} (idle : act u = none) (turn : step x = .ok (.row b, x'))
    (fed : feed u (some b) = .ok (t, u'))
    : drive step act feed (x, u) = .ok (t, x', u') := by
  simp only [drive, idle, turn, fed]
  rfl

theorem drive_again {x x' : σ} (idle : act u = none) (turn : step x = .ok (.again, x'))
    : drive step act feed (x, u) = .ok (.again, x', u) := by
  simp only [drive, idle, turn]

theorem drive_end {x x' : σ} {u u' : υ} (idle : act u = none) (turn : step x = .ok (.done, x'))
    (fed : feed u none = .ok (t, u'))
    : drive step act feed (x, u) = .ok (t, x', u') := by
  simp only [drive, idle, turn, fed]
  rfl

variable {inv : σ → Prop} {rows : σ → List ρ} (laws : Transducer act feed good out work closed)

include laws

theorem act_good {u' : υ} (fine : good u) (acts : act u = some (.ok (t, u')))
    : good u' ∧ (t ≠ .done → work u' < work u) := by
  cases t with
  | row b => exact (laws.act_row u b u' fine acts).imp_right fun less _ => less.1
  | again => exact (laws.act_again u u' fine acts).imp_right fun less _ => less.1
  | done => exact ⟨(laws.act_done u u' fine acts).1, absurd rfl⟩

theorem feed_good {b : ρ} {u' : υ} (fine : good u) (idle : act u = none) (fed : feed u (some b) = .ok (t, u'))
    : good u' := by
  cases t with
  | row r => exact (laws.feed_row u b r u' fine idle fed).1
  | again => exact (laws.feed_again u b u' fine idle fed).1
  | done => exact absurd fed (laws.feed_going u b u' fine idle)

theorem drive_good {x : σ} {y : σ × υ} (fine : good u)
    (ran : Pull.drive step act feed (x, u) = .ok (t, y))
    : good y.2 := by
  rcases drive_cases ran with ⟨u', acts, rfl⟩ | ⟨idle, more⟩
  · exact (act_good laws fine acts).1
  rcases more with ⟨b, x', u', _, fed, rfl⟩ | ⟨x', _, _, rfl⟩ | ⟨x', u', _, fed, rfl⟩
  · exact feed_good laws fine idle fed
  · exact fine
  · cases t with
    | row r => exact absurd fed (laws.end_row u r u' fine idle)
    | again => exact (laws.end_again u u' fine idle fed).1
    | done => exact (laws.end_done u u' fine idle fed).1

/-- Behind a transducer, the rows of an iterator are transduced. -/
theorem Turned.drive {x : σ} (turned : Turned step inv rows x) (invariant : inv x) (fine : good u)
    : Turned (drive step act feed) (fun y => inv y.1 ∧ good y.2) (fun y => out y.2 (rows y.1)) (x, u) := by
  refine .of_ok (fun t y ran => ?_)
  rcases drive_cases ran with ⟨u', acts, rfl⟩ | ⟨idle, more⟩
  · cases t with
    | row r =>
      obtain ⟨fine', _, same⟩ := laws.act_row u r u' fine acts
      exact ⟨⟨invariant, fine'⟩, same _⟩
    | again =>
      obtain ⟨fine', _, same⟩ := laws.act_again u u' fine acts
      exact ⟨⟨invariant, fine'⟩, same _⟩
    | done =>
      obtain ⟨fine', empty, empty', ended⟩ := laws.act_done u u' fine acts
      exact ⟨⟨invariant, fine'⟩, empty _, empty' _, drive_act ended⟩
  rcases more with ⟨b, x', u', turn, fed, rfl⟩ | ⟨x', turn, rfl, rfl⟩ | ⟨x', u', turn, fed, rfl⟩
  · obtain ⟨inv', left⟩ := turned.row b x' turn
    cases t with
    | row r =>
      obtain ⟨fine', same⟩ := laws.feed_row u b r u' fine idle fed
      exact ⟨⟨inv', fine'⟩, (congrArg (out u) left).trans (same _)⟩
    | again =>
      obtain ⟨fine', same⟩ := laws.feed_again u b u' fine idle fed
      exact ⟨⟨inv', fine'⟩, (congrArg (out u) left).trans (same _)⟩
    | done => exact absurd fed (laws.feed_going u b u' fine idle)
  · obtain ⟨inv', left⟩ := turned.again x' turn
    exact ⟨⟨inv', fine⟩, congrArg (out u) left⟩
  · obtain ⟨inv', none_left, none_left', stays⟩ := turned.done x' turn
    cases t with
    | row r => exact absurd fed (laws.end_row u r u' fine idle)
    | again =>
      obtain ⟨fine', _, same⟩ := laws.end_again u u' fine idle fed
      refine ⟨⟨inv', fine'⟩, ?_⟩
      change out u (rows x) = out u' (rows x')
      rw [none_left, none_left', same]
    | done =>
      obtain ⟨fine', empty, empty', idle', ended⟩ := laws.end_done u u' fine idle fed
      exact ⟨⟨inv', fine'⟩, (congrArg (out u) none_left).trans empty, (congrArg (out u') none_left').trans empty',
        drive_end idle' stays ended⟩

theorem halts_closed {x : σ} (fine : good u) (shut : closed u) : Halts (Pull.drive step act feed) (x, u) := by
  generalize bound : work u = n
  induction n using Nat.strongRecOn generalizing u with
  | _ n ih =>
    obtain ⟨r, acts, later⟩ := laws.closed_act u shut
    refine .intro _ (fun t y ran going => ?_)
    rcases drive_cases ran with ⟨u', acts', rfl⟩ | ⟨idle, _⟩
    · have shut' := later t u' (Option.some.inj (acts.symm.trans acts')) going
      obtain ⟨fine', less⟩ := act_good laws fine acts'
      exact ih (work u') (bound ▸ less going) fine' shut' rfl
    · rw [acts] at idle
      cases idle

theorem Halts.drive {x : σ} (halts : Halts step x) (fine : good u)
    : Halts (Pull.drive step act feed) (x, u) := by
  refine Halts.driven (fun d y => y.1 = d ∧ good y.2) (fun y => work y.2) ?_ halts ⟨rfl, fine⟩
  rintro d ⟨x, u⟩ t y _ ⟨rfl, fine⟩ ran going
  rcases drive_cases ran with ⟨u', acts, rfl⟩ | ⟨idle, more⟩
  · obtain ⟨fine', less⟩ := act_good laws fine acts
    exact .inr (.inl ⟨⟨rfl, fine'⟩, less going⟩)
  rcases more with ⟨b, x', u', turn, fed, rfl⟩ | ⟨x', turn, _, rfl⟩ | ⟨x', u', turn, fed, rfl⟩
  · exact .inr (.inr ⟨.row b, x', turn, by simp, rfl, feed_good laws fine idle fed⟩)
  · exact .inr (.inr ⟨.again, x', turn, by simp, rfl, fine⟩)
  · cases t with
    | row r => exact absurd fed (laws.end_row u r u' fine idle)
    | again =>
      obtain ⟨fine', shut, _⟩ := laws.end_again u u' fine idle fed
      exact .inl (halts_closed laws fine' shut)
    | done => exact absurd rfl going

end Transducers

section Embeddings

variable {τ : Type} {step : Step σ ρ ε} {small : Step τ ρ ε} {f : τ → σ} {within : τ → Prop}
  (sim : ∀ y, within y → step (f y) = (small y).map (fun r => (r.1, f r.2)))

include sim

theorem embed_cases {y : τ} {x : σ} (start : within y) (ran : step (f y) = .ok (t, x))
    : ∃ y', small y = .ok (t, y') ∧ x = f y' := by
  rw [sim y start] at ran
  cases turn : small y with
  | error e =>
    rw [turn] at ran
    cases ran
  | ok answer =>
    rw [turn] at ran
    cases ran
    exact ⟨answer.2, rfl, rfl⟩

/-- Turns carry over to an iterator whose states contain those of another one. -/
theorem Turned.embed {inv : σ → Prop} {rows : σ → List ρ} (inside : ∀ y, within y → inv (f y))
    {y : τ} (start : within y) (turned : Turned small within (fun y => rows (f y)) y)
    : Turned step inv rows (f y) := by
  refine .of_ok (fun t x ran => ?_)
  obtain ⟨y', turn, rfl⟩ := embed_cases sim start ran
  obtain ⟨within', account⟩ := turned.ok turn
  refine ⟨inside y' within', ?_⟩
  cases t with
  | row b | again => exact account
  | done =>
    refine ⟨account.1, account.2.1, ?_⟩
    rw [sim y' within', account.2.2]
    rfl

theorem Halts.embed (keeps : ∀ y t y', within y → small y = .ok (t, y') → within y') {y : τ}
    (start : within y) (halts : Halts small y)
    : Halts step (f y) := by
  induction halts with
  | intro y _ ih =>
    refine .intro _ (fun t x ran going => ?_)
    obtain ⟨y', turn, rfl⟩ := embed_cases sim start ran
    exact ih t y' turn going (keeps y t y' start turn)

end Embeddings

end Pull

end Kv
