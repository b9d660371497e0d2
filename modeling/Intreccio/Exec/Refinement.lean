import Intreccio.Exec.Run
import Intreccio.Exec.Building

/-! The machines of read-only plans refine lists: a machine yields the rows it has left, one after
the other, and then stays at its end.
-/

namespace Intreccio.Exec

open Kv Words Graph Ast Plan Program Pull

mutual
theorem readsTo_step (ctx : Context) (m : Machine) (quiet : m.Quiet) (a : Argument)
    : (step ctx m a).ReadsTo (fun r => r.2.1.Quiet) := by
  match m with
  | .argument => exact trivial
  | .source src => exact .bind (readsTo_next quiet) (fun _ reading => reading)
  | .unary input u =>
    rw [step]
    split
    · rename_i act acts
      exact .bind (readsTo_act quiet.2 acts) (fun _ reading => ⟨quiet.1, reading⟩)
    · refine .bind (readsTo_step ctx input quiet.1 a) (fun r below => ?_)
      split
      · exact .bind (readsTo_feed quiet.2 _) (fun _ reading => ⟨below, reading⟩)
      · exact ⟨below, quiet.2⟩
      · exact .bind (readsTo_feed quiet.2 _) (fun _ reading => ⟨below, reading⟩)
  | .cartesian left right rightRows true (some (b, r :: rows)) => exact quiet
  | .cartesian left right rightRows true (some (b, [])) => exact quiet
  | .cartesian left right rightRows false (some (b, rows)) =>
    refine .bind (readsTo_step ctx right quiet.2 a) (fun r below => ?_)
    split <;> exact ⟨quiet.1, below⟩
  | .cartesian left right rightRows loaded none =>
    rw [step]
    refine .bind (readsTo_step ctx left quiet.1 a) (fun r below => ?_)
    split <;> exact ⟨below, quiet.2⟩
  | .apply outer plan newVars cur valid inner arg emitted true ch =>
    rw [step]
    exact quiet
  | .apply outer plan newVars cur true inner arg emitted false ch =>
    refine .bind (readsTo_step ctx inner quiet.2.1 arg) (fun r below => ?_)
    split
    · exact ⟨quiet.1, below, quiet.2.2⟩
    · exact ⟨quiet.1, below, quiet.2.2⟩
    · split <;> exact ⟨quiet.1, below, quiet.2.2⟩
  | .apply outer plan newVars cur false inner arg emitted false ch =>
    refine .bind (readsTo_step ctx outer quiet.1 a) (fun r below => ?_)
    split
    · exact .bind (readsTo_buildWith ctx plan _ _) (fun _ built => ⟨below, built quiet.2.2, quiet.2.2⟩)
    · exact ⟨below, quiet.2⟩
    · exact ⟨below, quiet.2⟩
  | .union parts columns dedup seen => exact readsTo_stepUnion ctx parts quiet columns dedup seen a

theorem readsTo_stepUnion (ctx : Context) (parts : List Machine) (quiet : AllQuiet parts)
    (columns : List Str) (dedup : Bool) (seen : List Str) (a : Argument)
    : (stepUnion ctx parts columns dedup seen a).ReadsTo (fun r => r.2.1.Quiet) := by
  match parts with
  | [] => exact trivial
  | m :: rest =>
    refine .bind (readsTo_step ctx m quiet.1 a) (fun r below => ?_)
    split
    · split <;> exact ⟨below, quiet.2⟩
    · exact ⟨below, quiet.2⟩
    · exact quiet.2
end

theorem reads_step (ctx : Context) (m : Machine) (reading : m.Reading) (a : Argument) : (step ctx m a).Reads :=
  (readsTo_step ctx m reading.quiet a).reads

section Turns

variable (ctx : Context) (s : Store)

def stepOn : Step (Machine × Argument) Row Err := fun x => (turn ctx x).read s

def around (y : (Machine × Argument) × Unary) : Machine × Argument := (.unary y.1.1 y.2, y.1.2)

variable {ctx s}

theorem stepOn_source {a : Argument} (src : Source) (reading : src.reading = true)
    : stepOn ctx s (.source src, a) = (sourceStep ctx s src).map (fun r => (r.1, .source r.2, a)) := by
  refine (read_bind (reads_next reading)).trans ?_
  unfold sourceStep
  cases (src.next ctx).read s <;> rfl

theorem stepOn_around (y : (Machine × Argument) × Unary) (reading : y.1.1.Reading ∧ y.2.Reading)
    : stepOn ctx s (around y)
      = (drive (stepOn ctx s) (actOn ctx s) (feedOn ctx s) y).map (fun r => (r.1, around r.2)) := by
  obtain ⟨⟨input, a⟩, u⟩ := y
  change (step ctx (.unary input u) a).read s = _
  rw [step, drive]
  cases acts : u.act ctx with
  | some p =>
    simp only [actOn, acts, Option.map_some]
    refine (read_bind (reads_act reading.2 acts)).trans ?_
    cases p.read s <;> rfl
  | none =>
    simp only [actOn, acts, Option.map_none]
    refine (read_bind (reads_step ctx input reading.1 a)).trans ?_
    have turn : stepOn ctx s (input, a) = (step ctx input a).read s := rfl
    rw [turn]
    cases (step ctx input a).read s with
    | error e => rfl
    | ok r =>
      obtain ⟨t, input', a'⟩ := r
      cases t with
      | row b =>
        refine (read_bind (reads_feed reading.2 (some b))).trans ?_
        dsimp only [feedOn]
        cases (u.feed ctx (some b)).read s <;> rfl
      | again => rfl
      | done =>
        refine (read_bind (reads_feed reading.2 none)).trans ?_
        dsimp only [feedOn]
        cases (u.feed ctx none).read s <;> rfl

variable (ctx s)

/-- A turn adds no Argument leaf, and a machine without one neither reads nor takes the argument. -/
structure Kept (m : Machine) (a : Argument) (t : Turn Row) (m' : Machine) (a' : Argument) : Prop where
  reading : m'.Reading
  leaves : m'.leaves ≤ m.leaves
  still : m.leaves = 0 → a' = a
  free : m.leaves = 0 → ∀ other, stepOn ctx s (m, other) = .ok (t, m', other)

variable {ctx s} {a a' : Argument} {t : Turn Row} {m' : Machine}

/-- The machine asks one that has all its Argument leaves. -/
theorem Kept.lift {m n n' : Machine} {t' : Turn Row} (below : Kept ctx s n a t n' a')
    (free : m.leaves = 0 → n.leaves = 0) (reading : m'.Reading) (leaves : m'.leaves ≤ m.leaves)
    (turn : ∀ other, stepOn ctx s (n, other) = .ok (t, n', other) → stepOn ctx s (m, other) = .ok (t', m', other))
    : Kept ctx s m a t' m' a' :=
  ⟨reading, leaves, fun none' => below.still (free none'),
    fun none' other => turn other (below.free (free none') other)⟩

theorem kept_unary {input : Machine} {u : Unary} (reading : (Machine.unary input u).Reading)
    (below : ∀ t input' a', stepOn ctx s (input, a) = .ok (t, input', a') → Kept ctx s input a t input' a')
    (ran : stepOn ctx s (.unary input u, a) = .ok (t, m', a'))
    : Kept ctx s (.unary input u) a t m' a' := by
  obtain ⟨⟨⟨input', b⟩, u'⟩, turn, moved⟩ := embed_cases stepOn_around (y := ((input, a), u)) reading ran
  obtain ⟨rfl, rfl⟩ := Prod.mk.inj moved
  have reading' := drive_good unary_laws reading.2 turn
  -- the answer to another argument, from the answer of the operator
  have other_turn {other : Argument}
      (same : drive (stepOn ctx s) (actOn ctx s) (feedOn ctx s) ((input, other), u)
        = .ok (t, (input', other), u'))
      : stepOn ctx s (.unary input u, other) = .ok (t, .unary input' u', other) := by
    refine (stepOn_around ((input, other), u) reading).trans ?_
    rw [same]
    rfl
  rcases drive_cases turn with ⟨w, acts, same⟩ | ⟨idle, more⟩
  · cases same
    exact ⟨⟨reading.1, reading'⟩, Nat.le_refl _, fun _ => rfl, fun _ other => other_turn (drive_act acts)⟩
  rcases more with ⟨b, ⟨x, d⟩, w, turned, fed, same⟩ | ⟨⟨x, d⟩, turned, rfl, same⟩ | ⟨⟨x, d⟩, w, turned, fed, same⟩
  · cases same
    have kept := below _ _ _ turned
    exact kept.lift id ⟨kept.reading, reading'⟩ kept.leaves fun _ turn => other_turn (drive_row idle turn fed)
  · cases same
    have kept := below _ _ _ turned
    exact kept.lift id ⟨kept.reading, reading'⟩ kept.leaves fun _ turn => other_turn (drive_again idle turn)
  · cases same
    have kept := below _ _ _ turned
    exact kept.lift id ⟨kept.reading, reading'⟩ kept.leaves fun _ turn => other_turn (drive_end idle turn fed)

variable {m : Machine}

theorem asked {α : Type} (reading : m.Reading) {f : Turn Row × Machine × Argument → Txn α} {r : α}
    (ran : ((step ctx m a).bind f).read s = .ok r)
    : ∃ t m' a', stepOn ctx s (m, a) = .ok (t, m', a') ∧ (f (t, m', a')).read s = .ok r := by
  obtain ⟨⟨t, m', a'⟩, turn, ran⟩ := (read_bind_ok (reads_step ctx m reading a)).mp ran
  exact ⟨t, m', a', turn, ran⟩

theorem ask {α : Type} (reading : m.Reading) {f : Turn Row × Machine × Argument → Txn α}
    (turn : stepOn ctx s (m, a) = .ok (t, m', a'))
    : ((step ctx m a).bind f).read s = (f (t, m', a')).read s :=
  read_bind_of_ok (reads_step ctx m reading a) turn

mutual
theorem kept (m : Machine) (reading : m.Reading) {a a' : Argument} {t : Turn Row} {m' : Machine}
    (ran : stepOn ctx s (m, a) = .ok (t, m', a'))
    : Kept ctx s m a t m' a' := by
  match m with
  | .argument =>
    cases ran
    exact ⟨trivial, Nat.le_refl _, nofun, nofun⟩
  | .source src =>
    obtain ⟨⟨t, src'⟩, turn, ran⟩ := (read_bind_ok (reads_next reading)).mp ran
    cases ran
    exact ⟨((source_refines src reading).ok turn).1, Nat.le_refl _, fun _ => rfl,
      fun _ _ => read_bind_of_ok (reads_next reading) turn⟩
  | .unary input u => exact kept_unary reading (fun _ _ _ turn => kept input reading.1 turn) ran
  | .cartesian left right rightRows true (some (b, r :: rows))
  | .cartesian left right rightRows true (some (b, [])) =>
    cases ran
    exact ⟨reading, Nat.le_refl _, fun _ => rfl, fun _ _ => rfl⟩
  | .cartesian left right rightRows false (some (b, rows)) =>
    obtain ⟨t, right', a', turn, ran⟩ := asked reading.2 ran
    have below := kept right reading.2 turn
    cases t with
    | row _ | again | done =>
      cases ran
      exact below.lift Nat.eq_zero_of_add_eq_zero_left ⟨reading.1, below.reading⟩
        (Nat.add_le_add_left below.leaves _) fun _ => ask reading.2
  | .cartesian left right rightRows loaded none =>
    cases loaded with
    | true | false =>
      obtain ⟨t, left', a', turn, ran⟩ := asked reading.1 ran
      have below := kept left reading.1 turn
      cases t with
      | row _ | again | done =>
        cases ran
        exact below.lift Nat.eq_zero_of_add_eq_zero_right ⟨below.reading, reading.2⟩
          (Nat.add_le_add_right below.leaves _) fun _ => ask reading.1
  | .apply outer plan newVars cur valid inner arg emitted true ch =>
    cases valid with
    | true | false =>
      cases ran
      exact ⟨reading, Nat.le_refl _, fun _ => rfl, fun _ _ => rfl⟩
  | .apply outer plan newVars cur true inner arg emitted false ch =>
    obtain ⟨t, inner', arg', turn, ran⟩ := asked reading.2.1.1 ran
    have below := kept inner reading.2.1.1 turn
    have once := Nat.le_trans below.leaves reading.2.1.2
    cases t with
    | row _ | again =>
      cases ran
      exact ⟨⟨reading.1, ⟨below.reading, once⟩, reading.2.2⟩, Nat.le_refl _, fun _ => rfl,
        fun _ _ => ask reading.2.1.1 turn⟩
    | done =>
      dsimp only at ran
      split at ran
      all_goals
        rename_i matched
        cases ran
        refine ⟨⟨reading.1, ⟨below.reading, once⟩, reading.2.2⟩, Nat.le_refl _, fun _ => rfl,
          fun _ other => (ask reading.2.1.1 turn).trans ?_⟩
        dsimp only
        simp only [matched]
        rfl
  | .apply outer plan newVars cur false inner arg emitted false ch =>
    obtain ⟨t, outer', a', turn, ran⟩ := asked reading.1 ran
    have below := kept outer reading.1 turn
    cases t with
    | row b =>
      have reads := reads_buildWith ctx plan (some b) ch.now
      obtain ⟨inner', found, ran⟩ := (read_bind_ok reads).mp ran
      cases ran
      have fresh := built plan reading.2.2.1 reading.2.2.2.1 found
      have once := Nat.le_trans fresh.leaves reading.2.2.2.2
      exact below.lift id ⟨below.reading, ⟨fresh.reading, once⟩, reading.2.2⟩ below.leaves
        fun _ turn => (ask reading.1 turn).trans (read_bind_of_ok reads found)
    | again | done =>
      cases ran
      exact below.lift id ⟨below.reading, reading.2⟩ below.leaves fun _ => ask reading.1
  | .union parts columns dedup seen => exact kept_union parts reading ran

theorem kept_union (parts : List Machine) (reading : AllReading parts) {columns : List Str} {dedup : Bool}
    {seen : List Str} {a a' : Argument} {t : Turn Row} {m' : Machine}
    (ran : stepOn ctx s (.union parts columns dedup seen, a) = .ok (t, m', a'))
    : Kept ctx s (.union parts columns dedup seen) a t m' a' := by
  match parts with
  | [] =>
    cases ran
    exact ⟨trivial, Nat.le_refl _, fun _ => rfl, fun _ _ => rfl⟩
  | m :: rest =>
    obtain ⟨t, m', a', turn, ran⟩ := asked reading.1 ran
    have below := kept m reading.1 turn
    have fewer := Nat.add_le_add_right below.leaves (machineLeaves rest)
    have first : m.leaves + machineLeaves rest = 0 → m.leaves = 0 := Nat.eq_zero_of_add_eq_zero_right
    cases t with
    | row b =>
      dsimp only at ran
      split at ran
      all_goals
        rename_i known
        cases ran
        refine below.lift first ⟨below.reading, reading.2⟩ fewer fun _ turn => (ask reading.1 turn).trans ?_
        dsimp only
        simp only [known]
        rfl
    | again =>
      cases ran
      exact below.lift first ⟨below.reading, reading.2⟩ fewer fun _ => ask reading.1
    | done =>
      cases ran
      exact below.lift first reading.2 (Nat.le_add_left _ _) fun _ => ask reading.1
end

mutual
theorem remaining_free (m : Machine) (free : m.leaves = 0) (a other : Argument)
    : remaining ctx s m a = remaining ctx s m other := by
  match m with
  | .argument => cases free
  | .source src => rfl
  | .unary input u => rw [remaining, remaining, remaining_free input free a other]
  | .cartesian left right rightRows loaded cur =>
    obtain ⟨onLeft, onRight⟩ := Nat.add_eq_zero_iff.mp free
    rw [remaining, remaining, remaining_free left onLeft a other, remaining_free right onRight a other]
  | .apply outer plan newVars cur valid inner arg emitted pendingEmpty ch =>
    rw [remaining, remaining, remaining_free outer free a other]
  | .union parts columns dedup seen => rw [remaining, remaining, remainingAll_free parts free a other]

theorem remainingAll_free (l : List Machine) (free : machineLeaves l = 0) (a other : Argument)
    : remainingAll ctx s l a = remainingAll ctx s l other := by
  match l with
  | [] => rfl
  | m :: rest =>
    obtain ⟨onFirst, onRest⟩ := Nat.add_eq_zero_iff.mp free
    rw [remainingAll, remainingAll, remaining_free m onFirst a other, remainingAll_free rest onRest a other]
end

/-- Of two machines that share an argument, a turn of one leaves the rows of the other. -/
theorem remaining_beside (other : Machine) (kept : Kept ctx s m a t m' a')
    (once : m.leaves + other.leaves ≤ 1)
    : remaining ctx s other a = remaining ctx s other a' := by
  rcases Nat.eq_zero_or_pos m.leaves with free | taken
  · rw [kept.still free]
  · exact remaining_free other (by omega) a a'

theorem remainingAll_beside (rest : List Machine) (kept : Kept ctx s m a t m' a')
    (once : m.leaves + machineLeaves rest ≤ 1)
    : remainingAll ctx s rest a = remainingAll ctx s rest a' := by
  rcases Nat.eq_zero_or_pos m.leaves with free | taken
  · rw [kept.still free]
  · exact remainingAll_free rest (by omega) a a'

variable (ctx s)

/-- A machine that does not write and takes its argument at most once. -/
def Ready (x : Machine × Argument) : Prop := x.1.Reading ∧ x.1.leaves ≤ 1

def rowsLeft (x : Machine × Argument) : List Row := remaining ctx s x.1 x.2

variable {ctx s}

theorem turned_of (reading : m.Reading) (once : m.leaves ≤ 1)
    (account : ∀ t m' a', stepOn ctx s (m, a) = .ok (t, m', a') → Accounts (stepOn ctx s) (rowsLeft ctx s) (m, a) t (m', a'))
    : Turned (stepOn ctx s) Ready (rowsLeft ctx s) (m, a) := by
  refine .of_ok (fun t x' ran => ?_)
  obtain ⟨m', a'⟩ := x'
  have kept := kept m reading ran
  exact ⟨⟨kept.reading, Nat.le_trans kept.leaves once⟩, account t m' a' ran⟩

mutual
theorem turned (m : Machine) (reading : m.Reading) (once : m.leaves ≤ 1) (a : Argument)
    : Turned (stepOn ctx s) Ready (rowsLeft ctx s) (m, a) := by
  match m with
  | .argument =>
    obtain ⟨b, done⟩ := a
    cases done with
    | true => exact .of_turn rfl ⟨trivial, once⟩ ⟨rfl, rfl, rfl⟩
    | false => exact .of_turn rfl ⟨trivial, once⟩ rfl
  | .source src =>
    exact Turned.embed (f := fun src => (Machine.source src, a)) stepOn_source (fun _ reading => ⟨reading, Nat.zero_le _⟩)
      reading (source_refines src reading)
  | .unary input u =>
    have below := turned input reading.1 once a
    exact Turned.embed (f := around) (fun y ready => stepOn_around y ⟨ready.1.1, ready.2⟩)
      (fun y ready => ⟨⟨ready.1.1, ready.2⟩, ready.1.2⟩) (y := ((input, a), u))
      ⟨⟨reading.1, once⟩, reading.2⟩ (below.drive unary_laws ⟨reading.1, once⟩ reading.2)
  | .cartesian left right rightRows true (some (b, r :: rows)) => exact .of_turn rfl ⟨reading, once⟩ rfl
  | .cartesian left right rightRows true (some (b, [])) => exact .of_turn rfl ⟨reading, once⟩ rfl
  | .cartesian left right rightRows false (some (b, rows)) =>
    refine turned_of reading once (fun t m' a' ran => ?_)
    obtain ⟨t, right', a', turn, ran⟩ := asked reading.2 ran
    have same := remaining_beside left (kept right reading.2 turn) (Nat.add_comm _ _ ▸ once)
    have next := ((turned right reading.2 (Nat.le_trans (Nat.le_add_left _ _) once) a).ok turn).2
    cases t with
    | row _ | again | done =>
      simp only [Accounts, rowsLeft] at next
      cases ran
      simp [Accounts, rowsLeft, remaining, same, next]
  | .cartesian left right rightRows loaded none =>
    refine turned_of reading once (fun t m' a' ran => ?_)
    rw [stepOn, turn, step] at ran
    obtain ⟨t, left', a', stepped, ran⟩ := asked (a := a) reading.1 ran
    have same := remaining_beside right (kept left reading.1 stepped) once
    obtain ⟨ready, next⟩ := (turned left reading.1 (Nat.le_trans (Nat.le_add_right _ _) once) a).ok stepped
    cases t with
    | row _ | again =>
      simp only [Accounts, rowsLeft] at next
      cases ran
      cases loaded <;> simp [Accounts, rowsLeft, remaining, same, next, product]
    | done =>
      obtain ⟨none_left, none_left', ended⟩ := next
      have empty : remaining ctx s left a = [] := none_left
      have empty' : remaining ctx s left' a' = [] := none_left'
      cases ran
      refine ⟨by simp [rowsLeft, remaining, empty, product], by simp [rowsLeft, remaining, empty', product], ?_⟩
      rw [stepOn, turn, step]
      exact ask ready.1 ended
  | .apply outer plan newVars cur valid inner arg emitted true ch =>
    cases valid with
    | true | false => exact .of_turn rfl ⟨reading, once⟩ rfl
  | .apply outer plan newVars cur true inner arg emitted false ch =>
    refine turned_of reading once (fun t m' a' ran => ?_)
    obtain ⟨t, inner', arg', turn, ran⟩ := asked reading.2.1.1 ran
    have next := ((turned inner reading.2.1.1 reading.2.1.2 arg).ok turn).2
    cases t with
    | row _ | again =>
      simp only [Accounts, rowsLeft] at next
      cases ran
      cases emitted <;> cases newVars <;> simp [Accounts, rowsLeft, remaining, next, joined]
    | done =>
      have empty : remaining ctx s inner arg = [] := next.1
      dsimp only at ran
      split at ran
      · rename_i unmatched
        cases ran
        obtain ⟨fresh, outer_join⟩ := Bool.and_eq_true_iff.mp unmatched
        obtain rfl : emitted = false := by simpa using fresh
        obtain ⟨vars, rfl⟩ := Option.isSome_iff_exists.mp outer_join
        simp [Accounts, rowsLeft, remaining, empty, joined]
      · rename_i matched
        cases ran
        cases emitted with
        | true => simp [Accounts, rowsLeft, remaining, empty, joined]
        | false =>
          obtain rfl : newVars = none := by simpa using matched
          simp [Accounts, rowsLeft, remaining, empty, joined]
  | .apply outer plan newVars cur false inner arg emitted false ch =>
    refine turned_of reading once (fun t m' a' ran => ?_)
    obtain ⟨t, outer', a', turn, ran⟩ := asked reading.1 ran
    obtain ⟨ready, next⟩ := (turned outer reading.1 once a).ok turn
    cases t with
    | row b =>
      simp only [Accounts, rowsLeft] at next
      obtain ⟨inner', found, ran⟩ :=
        (read_bind_ok (reads_buildWith ctx plan (some b) ch.now)).mp ran
      cases ran
      have fresh := (built plan reading.2.2.1 reading.2.2.2.1 found).rows ⟨b, false⟩ (fun _ same => by cases same; rfl)
      simp [Accounts, rowsLeft, remaining, next, along, fresh]
    | again =>
      simp only [Accounts, rowsLeft] at next
      cases ran
      simp [Accounts, rowsLeft, remaining, next]
    | done =>
      obtain ⟨none_left, none_left', ended⟩ := next
      have empty : remaining ctx s outer a = [] := none_left
      have empty' : remaining ctx s outer' a' = [] := none_left'
      cases ran
      exact ⟨by simp [rowsLeft, remaining, empty, along], by simp [rowsLeft, remaining, empty', along], ask ready.1 ended⟩
  | .union parts columns dedup seen => exact turned_union parts reading once columns dedup seen a

theorem turned_union (parts : List Machine) (reading : AllReading parts) (once : machineLeaves parts ≤ 1)
    (columns : List Str) (dedup : Bool) (seen : List Str) (a : Argument)
    : Turned (stepOn ctx s) Ready (rowsLeft ctx s) (.union parts columns dedup seen, a) := by
  match parts with
  | [] => exact .of_turn rfl ⟨trivial, once⟩ ⟨rfl, rfl, rfl⟩
  | m :: rest =>
    refine turned_of reading once (fun t m' a' ran => ?_)
    obtain ⟨t, m', a', turn, ran⟩ := asked reading.1 ran
    have same := remainingAll_beside rest (kept m reading.1 turn) once
    have next := ((turned m reading.1 (Nat.le_trans (Nat.le_add_right _ _) once) a).ok turn).2
    cases t with
    | row b =>
      simp only [Accounts, rowsLeft] at next
      dsimp only at ran
      split at ran
      all_goals
        rename_i known
        cases ran
        simp [Accounts, rowsLeft, remaining, remainingAll, next, same, distinctFrom, known]
    | again | done =>
      simp only [Accounts, rowsLeft] at next
      cases ran
      simp [Accounts, rowsLeft, remaining, remainingAll, next, same]
end

theorem machines_refine : Refines (stepOn ctx s) Ready (rowsLeft ctx s) :=
  fun x ready => turned x.1 ready.1 ready.2 x.2

variable {x : Machine × Argument}

theorem halts_free (halts : Halts (stepOn ctx s) x) (reading : x.1.Reading) (free : x.1.leaves = 0)
    (other : Argument)
    : Halts (stepOn ctx s) (x.1, other) := by
  induction halts with
  | intro x _ ih =>
    refine .intro _ (fun t y ran going => ?_)
    obtain ⟨m', a'⟩ := y
    have kept := kept x.1 reading ran
    obtain rfl := kept.still free
    exact ih t (m', x.2) (kept.free free x.2) going kept.reading (Nat.le_zero.mp (free ▸ kept.leaves))

/-- Of two machines that share an argument, a turn of one does not keep the other from halting. -/
theorem halts_beside {m other : Machine} (kept : Kept ctx s m a t m' a') (reading : other.Reading)
    (once : m.leaves + other.leaves ≤ 1) (halts : Halts (stepOn ctx s) (other, a))
    : Halts (stepOn ctx s) (other, a') := by
  rcases Nat.eq_zero_or_pos m.leaves with free | taken
  · rw [kept.still free]
    exact halts
  · have free : other.leaves = 0 := by omega
    exact halts_free halts reading free a'

theorem halts_source {src : Source} (reading : src.reading = true) (a : Argument)
    : Halts (stepOn ctx s) (.source src, a) := by
  exact Halts.embed (f := fun src => (Machine.source src, a)) stepOn_source
    (fun src t src' reading ran => ((source_refines src reading).ok ran).1) reading (source_halts reading)

theorem halts_argument (a : Argument) : Halts (stepOn ctx s) (.argument, a) := by
  refine .intro _ (fun t x ran _ => ?_)
  cases ran
  refine .intro _ (fun t x ran going => ?_)
  cases ran
  exact absurd rfl going

theorem halts_unary {input : Machine} {u : Unary} (reading : input.Reading ∧ u.Reading)
    (halts : Halts (stepOn ctx s) (input, a))
    : Halts (stepOn ctx s) (.unary input u, a) := by
  refine Halts.embed (f := around) stepOn_around (fun y t y' reading ran => ?_) (y := ((input, a), u)) reading
    (halts.drive unary_laws reading.2)
  have turn : stepOn ctx s (around y) = .ok (t, around y') := by
    rw [stepOn_around y reading, ran]
    rfl
  exact (kept (.unary y.1.1 y.2) reading turn).reading

section Products

variable {left right : Machine} {rightRows : List Row}

/-- A product whose right side is loaded is driven by its left side. -/
theorem halts_loaded (halts : Halts (stepOn ctx s) x) (reading : x.1.Reading)
    (cur : Option (Row × List Row))
    : Halts (stepOn ctx s) (.cartesian x.1 right rightRows true cur, x.2) := by
  induction halts generalizing cur with
  | intro x _ ih =>
    have ready : Halts (stepOn ctx s) (.cartesian x.1 right rightRows true none, x.2) := by
      refine .intro _ (fun t y ran going => ?_)
      obtain ⟨t, left', a', turn, ran⟩ := asked reading ran
      have reading' := (kept x.1 reading turn).reading
      cases t with
      | row _ | again =>
        cases ran
        exact ih _ (left', a') turn (by simp) reading' _
      | done =>
        cases ran
        exact absurd rfl going
    match cur with
    | none => exact ready
    | some (b, rows) =>
      induction rows with
      | nil =>
        refine .intro _ (fun t y ran going => ?_)
        cases ran
        exact ready
      | cons r rows rest =>
        refine .intro _ (fun t y ran going => ?_)
        cases ran
        exact rest

/-- While its right side is loaded, a product is driven by that side. -/
theorem halts_loading (halts : Halts (stepOn ctx s) x) (reading : x.1.Reading) (beside : left.Reading)
    (once : left.leaves + x.1.leaves ≤ 1) (outer : Halts (stepOn ctx s) (left, x.2))
    (rightRows : List Row) (b : Row) (rows : List Row)
    : Halts (stepOn ctx s) (.cartesian left x.1 rightRows false (some (b, rows)), x.2) := by
  induction halts generalizing rightRows rows with
  | intro x _ ih =>
    refine .intro _ (fun t y ran going => ?_)
    obtain ⟨t, right', a', turn, ran⟩ := asked reading ran
    have kept := kept x.1 reading turn
    have outer' := halts_beside kept beside (Nat.add_comm _ _ ▸ once) outer
    have once' := Nat.le_trans (Nat.add_le_add_left kept.leaves _) once
    cases t with
    | row _ | again =>
      cases ran
      exact ih _ (right', a') turn (by simp) kept.reading once' outer' _ _
    | done =>
      cases ran
      exact halts_loaded outer' beside _

theorem halts_cartesian (halts : Halts (stepOn ctx s) x) (reading : x.1.Reading)
    (beside : right.Reading) (once : x.1.leaves + right.leaves ≤ 1)
    (inner : ∀ a, Halts (stepOn ctx s) (right, a))
    : Halts (stepOn ctx s) (.cartesian x.1 right rightRows false none, x.2) := by
  induction halts with
  | intro x later ih =>
    refine .intro _ (fun t y ran going => ?_)
    obtain ⟨t, left', a', turn, ran⟩ := asked reading ran
    have kept := kept x.1 reading turn
    have once' := Nat.le_trans (Nat.add_le_add_right kept.leaves _) once
    cases t with
    | row b =>
      cases ran
      exact halts_loading (inner a') beside kept.reading once' (later (.row b) _ turn (by simp)) _ _ _
    | again =>
      cases ran
      exact ih .again (left', a') turn (by simp) kept.reading once'
    | done =>
      cases ran
      exact absurd rfl going

end Products

/-- An apply that does not wait for its outer machine is driven by the inner one. -/
theorem halts_running {outer : Machine} {plan : Plan.Op} {newVars : Option (List Str)} {cur : Row}
    {ch : Choices}
    (waiting : ∀ inner arg emitted, Halts (stepOn ctx s) (.apply outer plan newVars cur false inner arg emitted false ch, a))
    (halts : Halts (stepOn ctx s) x) (reading : x.1.Reading) (emitted : Bool)
    : Halts (stepOn ctx s) (.apply outer plan newVars cur true x.1 x.2 emitted false ch, a) := by
  induction halts generalizing emitted with
  | intro x _ ih =>
    refine .intro _ (fun t y ran going => ?_)
    obtain ⟨t, inner', arg', turn, ran⟩ := asked reading ran
    have reading' := (kept x.1 reading turn).reading
    cases t with
    | row _ | again =>
      cases ran
      exact ih _ (inner', arg') turn (by simp) reading' _
    | done =>
      dsimp only at ran
      split at ran
      · cases ran
        refine .intro _ (fun t y ran going => ?_)
        cases ran
        exact waiting _ _ _
      · cases ran
        exact waiting _ _ _

/-- An apply is driven by its outer machine, and by an inner machine for each of its rows. -/
theorem halts_apply {plan : Plan.Op} {newVars : Option (List Str)} (onPlan : plan.readOnly = true)
    (linear : plan.linear = true)
    (below : ∀ b c m, (buildWith ctx plan (some b) c).read s = .ok m → ∀ a, Halts (stepOn ctx s) (m, a))
    (halts : Halts (stepOn ctx s) x) (reading : x.1.Reading) (cur : Row) (inner : Machine)
    (arg : Argument) (emitted : Bool) (ch : Choices)
    : Halts (stepOn ctx s) (.apply x.1 plan newVars cur false inner arg emitted false ch, x.2) := by
  induction halts generalizing cur inner arg emitted ch with
  | intro x _ ih =>
    refine .intro _ (fun t y ran going => ?_)
    obtain ⟨t, outer', a', turn, ran⟩ := asked reading ran
    have reading' := (kept x.1 reading turn).reading
    cases t with
    | row b =>
      obtain ⟨inner', found, ran⟩ := (read_bind_ok (reads_buildWith ctx plan (some b) ch.now)).mp ran
      cases ran
      have waiting := ih (.row b) (outer', a') turn (by simp) reading' b
      exact halts_running (fun inner arg emitted => waiting inner arg emitted ch.later)
        (below b ch.now inner' found ⟨b, false⟩) (built plan onPlan linear found).reading false
    | again =>
      cases ran
      exact ih .again (outer', a') turn (by simp) reading' _ _ _ _ _
    | done =>
      cases ran
      exact absurd rfl going

section Unions

variable {columns : List Str} {dedup : Bool}

/-- The first part drives a union until it ends. -/
theorem halts_first {rest : List Machine}
    (others : ∀ seen a, Halts (stepOn ctx s) (.union rest columns dedup seen, a))
    (halts : Halts (stepOn ctx s) x) (reading : x.1.Reading) (seen : List Str)
    : Halts (stepOn ctx s) (.union (x.1 :: rest) columns dedup seen, x.2) := by
  induction halts generalizing seen with
  | intro x _ ih =>
    refine .intro _ (fun t y ran going => ?_)
    obtain ⟨t, m', a', turn, ran⟩ := asked reading ran
    have reading' := (kept x.1 reading turn).reading
    cases t with
    | row b =>
      dsimp only at ran
      split at ran
      all_goals
        cases ran
        exact ih (.row b) (m', a') turn (by simp) reading' _
    | again =>
      cases ran
      exact ih .again (m', a') turn (by simp) reading' _
    | done =>
      cases ran
      exact others _ _

theorem halts_union {parts : List Machine} (reading : AllReading parts) (once : machineLeaves parts ≤ 1)
    (each : ∀ m ∈ parts, m.Reading → m.leaves ≤ 1 → ∀ a, Halts (stepOn ctx s) (m, a)) (seen : List Str)
    (a : Argument)
    : Halts (stepOn ctx s) (.union parts columns dedup seen, a) := by
  induction parts generalizing seen a with
  | nil =>
    refine .intro _ (fun t y ran going => ?_)
    cases ran
    exact absurd rfl going
  | cons m rest others =>
    have rest_halts := others reading.2 (Nat.le_trans (Nat.le_add_left _ _) once)
      (fun m member => each m (List.mem_cons_of_mem _ member))
    have first := each m List.mem_cons_self reading.1 (Nat.le_trans (Nat.le_add_right _ _) once) a
    exact halts_first rest_halts first reading.1 seen

end Unions

/-- The machine of a read-only plan halts on every store. -/
theorem Opened.halts {m : Machine} (opened : Opened ctx s m) (reading : m.Reading) (once : m.leaves ≤ 1) (a : Argument)
    : Halts (stepOn ctx s) (m, a) := by
  induction opened generalizing a with
  | source reading => exact halts_source reading a
  | argument => exact halts_argument a
  | unary _ input => exact halts_unary reading (input reading.1 once a)
  | cartesian _ _ left right =>
    have left_halts := left reading.1 (Nat.le_trans (Nat.le_add_right _ _) once)
    have right_halts := right reading.2 (Nat.le_trans (Nat.le_add_left _ _) once)
    exact halts_cartesian (left_halts a) reading.1 reading.2 once right_halts
  | apply _ onInner linear once' _ outer inner =>
    refine halts_apply onInner linear (fun b c m found => ?_) (outer reading.1 once a) reading.1 _ _ _ _ _
    have fresh := built _ onInner linear found
    exact inner b c m found fresh.reading (Nat.le_trans fresh.leaves once')
  | union _ parts => exact halts_union reading once parts _ a

theorem run_turn (reading : x.1.Reading) : (turn ctx x).run s = (stepOn ctx s x, s) :=
  (reads_step ctx x.1 reading x.2).run_eq

theorem run_next (turns : Nat) (reading : x.1.Reading)
    : (next (turn ctx) turns x).run s = (next (stepOn ctx s) turns x, s) := by
  induction turns generalizing x with
  | zero => rfl
  | succ turns ih =>
    refine (run_bind _ _ _).trans ?_
    rw [run_turn reading]
    cases stepped : stepOn ctx s x with
    | error e => rw [next_error stepped]
    | ok r =>
      obtain ⟨t, m', a'⟩ := r
      cases t with
      | again => exact (ih (kept x.1 reading stepped).reading).trans (by rw [next_again stepped])
      | row b => exact (by rw [next_row stepped]; rfl)
      | done => exact (by rw [next_done stepped]; rfl)

theorem reading_next {turns : Nat} {x x' : Machine × Argument} {t : Turn Row} (reading : x.1.Reading)
    (ran : next (stepOn ctx s) turns x = .ok (t, x'))
    : x'.1.Reading := by
  induction turns generalizing x with
  | zero =>
    cases ran
    exact reading
  | succ turns ih =>
    cases stepped : stepOn ctx s x with
    | error e =>
      rw [next_error stepped] at ran
      cases ran
    | ok r =>
      obtain ⟨t', m', a'⟩ := r
      have reading' := (kept x.1 reading stepped).reading
      cases t' with
      | again => exact ih reading' (by rwa [next_again stepped] at ran)
      | row b =>
        rw [next_row stepped] at ran
        cases ran
        exact reading'
      | done =>
        rw [next_done stepped] at ran
        cases ran
        exact reading'

theorem run_calls (turns k : Nat) (reading : x.1.Reading)
    : (calls (turn ctx) turns k x).run s = (calls (stepOn ctx s) turns k x, s) := by
  induction k generalizing x with
  | zero => rfl
  | succ k ih =>
    refine (run_bind _ _ _).trans ?_
    rw [run_next turns reading]
    cases answer : next (stepOn ctx s) turns x with
    | error e => rw [calls_error answer]
    | ok r =>
      obtain ⟨t, x'⟩ := r
      have rest := ih (reading_next reading answer)
      cases t with
      | row b =>
        refine (run_bind _ _ _).trans ?_
        rw [rest, calls_row answer]
        cases calls (stepOn ctx s) turns k x' <;> rfl
      | done =>
        refine (run_bind _ _ _).trans ?_
        rw [rest, calls_end answer]
        cases calls (stepOn ctx s) turns k x' <;> rfl
      | again =>
        rw [calls_late answer]
        rfl

end Turns

/-- The calls of the machine of a plan are answered with the rows that the plan denotes, one by one
and in order, and then with the end, unless there is an error; the store is left as it is.
-/
def YieldsDenoted (ctx : Context) (s : Store) (p : Plan.Op) (c : Choices) : Prop :=
  (∃ e, (buildWith ctx p none c).run s = (.error e, s))
    ∨ ∃ m, (buildWith ctx p none c).run s = (.ok m, s)
      ∧ ∃ n, ∀ turns ≥ n, ∀ k,
        (∃ e, (calls (turn ctx) turns k (m, noArgument)).run s = (.error e, s))
        ∨ (calls (turn ctx) turns k (m, noArgument)).run s
          = (.ok (some (answers (denote ctx s p none c) k)), s)

/-- The operators of a read-only plan refine lists, if its inner plans take their row at most once. -/
theorem yieldsDenoted_of_linear (ctx : Context) (s : Store) (p : Plan.Op) (c : Choices)
    (reading : p.readOnly = true) (linear : p.linear = true)
    : YieldsDenoted ctx s p c := by
  have built_run := (reads_buildWith ctx p none c).run_eq (m := s)
  cases ran : (buildWith ctx p none c).read s with
  | error e => exact .inl ⟨e, by rw [built_run, ran]⟩
  | ok m =>
    refine .inr ⟨m, by rw [built_run, ran], ?_⟩
    have built := built p reading linear ran
    have free := built.free rfl
    have ready : Ready (m, noArgument) := ⟨built.reading, free ▸ Nat.zero_le 1⟩
    have halts := built.opened.halts ready.1 ready.2 noArgument
    obtain ⟨n, answered⟩ := machines_refine.calls_eq halts ready
    refine ⟨n, fun turns enough k => ?_⟩
    rw [run_calls turns k ready.1]
    have rows : rowsLeft ctx s (m, noArgument) = denote ctx s p none c := built.rows noArgument nofun
    rcases answered turns enough k with ⟨e, failed⟩ | yields
    · exact .inl ⟨e, by rw [failed]⟩
    · exact .inr (by rw [yields, rows])

/-- An outer join of two lists, each row of which meets the nodes of the store. -/
def joinOfLists : Plan.Op :=
  .outerApply (.unwind .nil (.listLiteral [.literal (.int 1), .literal (.int 2)]) (lit "x"))
    (.cartesianProduct .argument (.allNodesScan (lit "n"))) [lit "n"]

theorem yieldsDenoted_joinOfLists
    : joinOfLists.readOnly = true ∧ joinOfLists.linear = true
      ∧ YieldsDenoted .bare .empty joinOfLists .ordered :=
  ⟨rfl, rfl, yieldsDenoted_of_linear .bare .empty joinOfLists .ordered rfl rfl⟩

/-- Two leaves that share the row of an apply: the right one finds it taken. -/
def sharedArgument : Plan.Op := .apply .nil (.cartesianProduct .argument .argument)

theorem not_yieldsDenoted_sharedArgument
    : sharedArgument.readOnly = true ∧ ¬ YieldsDenoted .bare .empty sharedArgument .ordered := by
  refine ⟨rfl, ?_⟩
  rintro (⟨e, failed⟩ | ⟨m, ran, n, answered⟩)
  · cases failed
  · cases ran
    rcases answered (n + 8) (Nat.le_add_right _ _) 1 with ⟨e, failed⟩ | yields
    · cases failed
    · cases yields

end Intreccio.Exec
