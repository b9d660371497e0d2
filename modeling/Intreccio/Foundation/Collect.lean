import Intreccio.Foundation.Pull
import Intreccio.Foundation.Reads

/-! Runs of a pull iterator whose turns have effects: the rows are known together with the store at the moment
each of them was yielded.
-/

namespace Kv.Pull

open List

variable {σ ρ : Type} {m : Type → Type} [Monad m]

/-- All rows of an iterator; none when the turns run out. -/
def collect (step : σ → m (Turn ρ × σ)) : Nat → σ → m (Option (List ρ))
  | 0, _ => return none
  | turns + 1, x => do
      match ← step x with
      | (.again, x) => collect step turns x
      | (.done, _) => return some []
      | (.row b, x) => do
          let more ← collect step turns x
          return more.map (b :: ·)

section Stores

variable {κ ν ε : Type} [LinearOrder κ] {step : σ → Program κ ν ε (Turn ρ × σ)}
  {before after : OrderedMap κ ν}

def yielded (t : Turn ρ) (s : OrderedMap κ ν) : List (ρ × OrderedMap κ ν) :=
  match t with
  | .row b => [(b, s)]
  | _ => []

/-- Some turns of an iterator before its end: the rows that they yield, each with the store at that moment, and
the state and the store in the end.
-/
inductive Runs (step : σ → Program κ ν ε (Turn ρ × σ)) (x : σ) (before : OrderedMap κ ν)
    : List (ρ × OrderedMap κ ν) → σ → OrderedMap κ ν → Prop
  | start : Runs step x before [] x before
  | turn {rows : List (ρ × OrderedMap κ ν)} {y z : σ} {t : Turn ρ} {mid after : OrderedMap κ ν}
      (earlier : Runs step x before rows y mid) (ran : (step y).run mid = (.ok (t, z), after)) (more : t ≠ .done)
      : Runs step x before (rows ++ yielded t after) z after

/-- Two runs one after the other. -/
theorem Runs.trans {x y z : σ} {mid : OrderedMap κ ν} {rows rows' : List (ρ × OrderedMap κ ν)}
    (first : Runs step x before rows y mid) (later : Runs step y mid rows' z after)
    : Runs step x before (rows ++ rows') z after := by
  induction later with
  | start => exact (append_nil rows).symm ▸ first
  | turn _ ran more ih => exact append_assoc _ _ _ ▸ .turn ih ran more

/-- A run may begin with one turn more. -/
theorem Runs.first {x y z : σ} {t : Turn ρ} {mid : OrderedMap κ ν} {rows : List (ρ × OrderedMap κ ν)}
    (ran : (step x).run before = (.ok (t, y), mid)) (more : t ≠ .done) (later : Runs step y mid rows z after)
    : Runs step x before (yielded t mid ++ rows) z after := by
  exact (Runs.turn .start ran more).trans later

/-- Collecting all rows is a run up to the end of the iterator. -/
theorem runs_of_collect {turns : Nat} {x : σ} {rows : List ρ}
    (ran : (collect step turns x).run before = (.ok (some rows), after))
    : ∃ out y mid z, Runs step x before out y mid ∧ (step y).run mid = (.ok (.done, z), after)
      ∧ out.map Prod.fst = rows := by
  induction turns generalizing x rows before with
  | zero => cases ran
  | succ turns ih =>
    obtain ⟨⟨t, x'⟩, mid, turn, ran⟩ := Program.run_bind_ok.mp ran
    cases t with
    | again =>
      obtain ⟨out, y, last, z, later, ended, same⟩ := ih ran
      exact ⟨out, y, last, z, .first turn Turn.again_ne_done later, ended, same⟩
    | done =>
      cases ran
      exact ⟨[], x, before, x', .start, turn, rfl⟩
    | row b =>
      obtain ⟨more, last, others, ran⟩ := Program.run_bind_ok.mp ran
      cases more with
      | none => cases ran
      | some more =>
        cases ran
        obtain ⟨out, y, last, z, later, ended, same⟩ := ih others
        exact ⟨(b, mid) :: out, y, last, z, .first turn (Turn.row_ne_done b) later, ended, congrArg (b :: ·) same⟩

/-- What a run has yielded is what is collected first, by induction on the turns. -/
theorem Runs.rest {n : Nat} {x y : σ} {mid : OrderedMap κ ν} {out : List (ρ × OrderedMap κ ν)} {rows : List ρ}
    (runs : Runs step x before out y mid) (all : (collect step n x).run before = (.ok (some rows), after))
    : ∃ turns rest, rows = out.map Prod.fst ++ rest ∧ (collect step turns y).run mid = (.ok (some rest), after) := by
  induction runs with
  | start => exact ⟨n, rows, rfl, all⟩
  | @turn out y z t mid last _ ran more ih =>
    obtain ⟨turns, rest, rfl, all⟩ := ih
    cases turns with
    | zero => cases all
    | succ turns =>
      obtain ⟨⟨t', z'⟩, last', again, all⟩ := Program.run_bind_ok.mp all
      cases ran.symm.trans again
      cases t with
      | again => exact ⟨turns, rest, by simp [yielded], all⟩
      | done => exact absurd rfl more
      | row b =>
        obtain ⟨found, _, others, all⟩ := Program.run_bind_ok.mp all
        cases found with
        | none => cases all
        | some found =>
          cases all
          exact ⟨turns, found, by simp [yielded], others⟩

/-- A run up to the end of the iterator yields all that is collected. -/
theorem Runs.all {n : Nat} {x y z : σ} {mid last : OrderedMap κ ν} {out : List (ρ × OrderedMap κ ν)}
    {rows : List ρ} (runs : Runs step x before out y mid) (ended : (step y).run mid = (.ok (.done, z), last))
    (all : (collect step n x).run before = (.ok (some rows), after))
    : out.map Prod.fst = rows := by
  obtain ⟨turns, rest, rfl, all⟩ := runs.rest all
  cases turns with
  | zero => cases all
  | succ turns =>
    obtain ⟨_, _, again, all⟩ := Program.run_bind_ok.mp all
    cases ended.symm.trans again
    cases all
    rw [append_nil]

end Stores

/-- What an operator puts out while it reads its inputs one by one: for each input it spreads some tasks, and it
reads the next input only when all of them are answered, with an output or without. The last list has the tasks
that are left.
-/
inductive Serves {α β γ : Type} (spread : α → List γ → Prop) (answer : α → γ → Option β → Prop)
    : List α → List β → List γ → Prop
  | start : Serves spread answer [] [] []
  | read {ins : List α} {outs : List β} {a : α} {tasks : List γ} (earlier : Serves spread answer ins outs [])
      (found : spread a tasks)
      : Serves spread answer (ins ++ [a]) outs tasks
  | answer {ins : List α} {outs : List β} {a : α} {task : γ} {tasks : List γ} {o : Option β}
      (earlier : Serves spread answer ins outs (task :: tasks)) (last : ins.getLast? = some a)
      (here : answer a task o)
      : Serves spread answer ins (outs ++ o.toList) tasks

/-- Tasks are left for the input that was read last. -/
theorem Serves.last {α β γ : Type} {spread : α → List γ → Prop} {answer : α → γ → Option β → Prop} {ins : List α}
    {outs : List β} {task : γ} {tasks : List γ} (serves : Serves spread answer ins outs (task :: tasks))
    : ∃ a, ins.getLast? = some a := by
  cases serves with
  | read => exact ⟨_, getLast?_concat⟩
  | answer _ last _ => exact ⟨_, last⟩

end Kv.Pull
