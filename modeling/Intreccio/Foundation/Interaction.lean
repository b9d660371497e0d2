import Mathlib.Tactic.Common

/-! Clients of an interface: each call may depend on the answers to the calls before it. Two
machines that implement the interface are compared by a simulation, and every client then gets the
same answers from both.
-/

namespace Interaction

/-- The calls of an interface and what each one answers. -/
structure Interface where
  Request : Type
  Response : Request → Type

variable {I : Interface} {α σ τ : Type}

/-- Code that makes calls and ends with a result. -/
inductive Client (I : Interface) (α : Type) where
  | done (result : α)
  | call (r : I.Request) (next : I.Response r → Client I α)

/-- An implementation: how it answers a call, and its state after it. -/
structure Machine (I : Interface) (σ : Type) where
  step : (r : I.Request) → σ → I.Response r × σ

/-- The client's result, and the state it leaves. -/
def Client.run (m : Machine I σ) : Client I α → σ → α × σ
  | .done result, s => (result, s)
  | .call r next, s => (next (m.step r s).1).run m (m.step r s).2

/-- Related states answer every call alike and stay related. -/
structure Simulation (m : Machine I σ) (n : Machine I τ) (rel : σ → τ → Prop) : Prop where
  answer : ∀ r s t, rel s t → (m.step r s).1 = (n.step r t).1
  after : ∀ r s t, rel s t → rel (m.step r s).2 (n.step r t).2

/-- A client cannot tell related states apart. -/
theorem Simulation.run {m : Machine I σ} {n : Machine I τ} {rel : σ → τ → Prop}
    (sim : Simulation m n rel) (client : Client I α) {s : σ} {t : τ} (related : rel s t)
    : (client.run m s).1 = (client.run n t).1 ∧ rel (client.run m s).2 (client.run n t).2 := by
  induction client generalizing s t with
  | done result => exact ⟨rfl, related⟩
  | call r next ih =>
    have same := sim.answer r s t related
    simp only [Client.run, same]
    exact ih _ (sim.after r s t related)

end Interaction
