import Intreccio.Foundation.Program

/-! Invariants of bodies: what holds of the store before a body that succeeds holds after it, and
the body's answer has a property. Such facts compose along the body.
-/

namespace Kv.Program

variable {κ ν ε α β : Type} [LinearOrder κ]

/-- A body that succeeds keeps the invariant, and its answer has the property. -/
def Maintains (I : OrderedMap κ ν → Prop) (p : Program κ ν ε α) (post : α → Prop) : Prop :=
  ∀ m a m', I m → p.Exec .exact m (.ok a) m' → I m' ∧ post a

variable {I : OrderedMap κ ν → Prop} {post : α → Prop}

theorem maintains_ret {a : α} (answer : post a) : Maintains I (ret a : Program κ ν ε α) post := by
  intro m b m' holds ran
  obtain ⟨rfl, rfl⟩ := exec_ret.mp ran
  exact ⟨holds, answer⟩

theorem maintains_fail (post : α → Prop) (e : ε) : Maintains I (fail e : Program κ ν ε α) post :=
  fun _ _ _ _ ran => (exec_fail.mp ran).elim

theorem maintains_ofExcept {x : Except ε α} (post : α → Prop) (answer : ∀ a, x = .ok a → post a)
    : Maintains I (ofExcept x : Program κ ν ε α) post := by
  intro m a m' holds ran
  obtain ⟨value, rfl⟩ := exec_ofExcept.mp ran
  exact ⟨holds, answer a value⟩

theorem maintains_write {k : κ} {v : ν} (kept : ∀ m, I m → I (m.set k v))
    : Maintains I (write k v : Program κ ν ε Unit) (fun _ => True) := by
  intro m a m' holds ran
  obtain rfl := exec_write.mp ran
  exact ⟨kept m holds, trivial⟩

theorem maintains_erase {k : κ} (kept : ∀ m, I m → I (m.delete k))
    : Maintains I (erase k : Program κ ν ε Unit) (fun _ => True) := by
  intro m a m' holds ran
  obtain rfl := exec_erase.mp ran
  exact ⟨kept m holds, trivial⟩

theorem Maintains.bind {p : Program κ ν ε α} {f : α → Program κ ν ε β} {after : β → Prop}
    (first : Maintains I p post) (rest : ∀ a, post a → Maintains I (f a) after)
    : Maintains I (p.bind f) after := by
  intro m b m' holds ran
  obtain ⟨a, mid, started, finished⟩ := exec_bind_ok.mp ran
  obtain ⟨between, answer⟩ := first m a mid holds started
  exact rest a answer mid b m' between finished

theorem Maintains.each {items : List α} {body : α → Program κ ν ε Unit}
    (all : ∀ a ∈ items, Maintains I (body a) (fun _ => True))
    : Maintains I (Program.each items body) (fun _ => True) := by
  induction items with
  | nil => exact maintains_ret trivial
  | cons a rest ih =>
    exact (all a (by simp)).bind (fun _ _ => ih (fun b member => all b (by simp [member])))

theorem exec_each_total (items : List β) (body : β → Program κ ν ε Unit)
    (runs : ∀ b ∈ items, ∀ m, I m → ∃ m', (body b).Exec .exact m (.ok ()) m')
    (keeps : ∀ b ∈ items, Maintains I (body b) (fun _ => True)) {m : OrderedMap κ ν} (start : I m)
    : ∃ m', (each items body).Exec .exact m (.ok ()) m' := by
  induction items generalizing m with
  | nil => exact ⟨m, exec_each_nil.mpr rfl⟩
  | cons b rest ih =>
    obtain ⟨mid, first⟩ := runs b (by simp) m start
    have still := (keeps b (by simp) m () mid start first).1
    obtain ⟨after, more⟩ := ih (fun b member => runs b (by simp [member]))
      (fun b member => keeps b (by simp [member])) still
    exact ⟨after, exec_each_cons.mpr ⟨mid, first, more⟩⟩

end Kv.Program
