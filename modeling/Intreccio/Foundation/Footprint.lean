import Intreccio.Foundation.Reads

/-! The footprint of a body: the keys it can write or erase, whatever its reads answer.
Footprints compose along the body, and an execution changes nothing outside them.
-/

namespace Kv.Program

open OrderedMap

variable {κ ν ε α β : Type}

/-- The body writes only keys of `sets` and erases only keys of `erases`. -/
def Footprint (sets erases : κ → Prop) : Program κ ν ε α → Prop
  | ret _ => True
  | fail _ => True
  | get _ next => ∀ v, (next v).Footprint sets erases
  | set k _ next => sets k ∧ next.Footprint sets erases
  | delete k next => erases k ∧ next.Footprint sets erases
  | scan range next => ∀ l, (∀ e ∈ l, range e.1 = true) → (next l).Footprint sets erases
  | probe _ next => ∀ b, (next b).Footprint sets erases

variable {sets erases : κ → Prop}

@[simp] theorem footprint_write {k : κ} {v : ν}
    : (write k v : Program κ ν ε _).Footprint sets erases ↔ sets k := by
  simp [write, Footprint]

@[simp] theorem footprint_erase {k : κ} : (erase k : Program κ ν ε _).Footprint sets erases ↔ erases k := by
  simp [erase, Footprint]

variable {p : Program κ ν ε α}

theorem Reads.footprint (reads : p.Reads) : p.Footprint sets erases := by
  induction p with
  | ret _ | fail _ => trivial
  | set _ _ _ _ | delete _ _ _ => exact reads.elim
  | get _ _ ih | probe _ _ ih => exact fun answer => ih answer (reads answer)
  | scan _ _ ih => exact fun l _ => ih l (reads l)

theorem Footprint.bind {f : α → Program κ ν ε β} (first : p.Footprint sets erases)
    (rest : ∀ a, (f a).Footprint sets erases)
    : (p.bind f).Footprint sets erases := by
  induction p with
  | ret a => exact rest a
  | fail e => trivial
  | get k next ih => exact fun v => ih v (first v)
  | set k v next ih => exact ⟨first.1, ih first.2⟩
  | delete k next ih => exact ⟨first.1, ih first.2⟩
  | scan range next ih => exact fun l inside => ih l (first l inside)
  | probe range next ih => exact fun b => ih b (first b)

theorem Footprint.each {items : List α} {body : α → Program κ ν ε Unit}
    (all : ∀ a ∈ items, (body a).Footprint sets erases)
    : (Program.each items body).Footprint sets erases := by
  induction items with
  | nil => trivial
  | cons a rest ih =>
    exact (all a (by simp)).bind (fun _ => ih (fun b member => all b (by simp [member])))

/-- What follows a scan may rely on the keys being in its range. -/
theorem Footprint.entries_bind {range : κ → Bool} {f : List (κ × ν) → Program κ ν ε β}
    (rest : ∀ l, (∀ e ∈ l, range e.1 = true) → (f l).Footprint sets erases)
    : ((entries range).bind f).Footprint sets erases :=
  rest

theorem Footprint.mono {sets' erases' : κ → Prop} (body : p.Footprint sets erases)
    (moreSets : ∀ k, sets k → sets' k) (moreErases : ∀ k, erases k → erases' k)
    : p.Footprint sets' erases' := by
  induction p with
  | ret a => trivial
  | fail e => trivial
  | get k next ih => exact fun v => ih v (body v)
  | set k v next ih => exact ⟨moreSets k body.1, ih body.2⟩
  | delete k next ih => exact ⟨moreErases k body.1, ih body.2⟩
  | scan range next ih => exact fun l inside => ih l (body l inside)
  | probe range next ih => exact fun b => ih b (body b)

variable [LinearOrder κ] {rule : ScanRule κ ν} {m m' : OrderedMap κ ν}

/-- An execution changes no key outside the footprint, and adds none that is not written. -/
theorem Footprint.exec {r : Except ε α} (body : p.Footprint sets erases) (ran : p.Exec rule m r m')
    : (∀ k, ¬ sets k → ¬ erases k → m'.get k = m.get k)
      ∧ ∀ k, m'.get k ≠ none → m.get k ≠ none ∨ sets k := by
  induction p generalizing m with
  | ret a | fail e =>
    obtain ⟨_, rfl⟩ := ran
    exact ⟨fun _ _ _ => rfl, fun _ => .inl⟩
  | get k next ih => exact ih _ (body _) ran
  | set k v next ih =>
    obtain ⟨frame, added⟩ := ih body.2 ran
    refine ⟨fun key unset kept => ?_, fun key present => ?_⟩
    · have other : key ≠ k := fun same => unset (same ▸ body.1)
      rw [frame key unset kept, get_set, if_neg other]
    · by_cases same : key = k
      · exact .inr (same ▸ body.1)
      · simpa [get_set, same] using added key present
  | delete k next ih =>
    obtain ⟨frame, added⟩ := ih body.2 ran
    refine ⟨fun key unset kept => ?_, fun key present => ?_⟩
    · have other : key ≠ k := fun same => kept (same ▸ body.1)
      rw [frame key unset kept, get_delete, if_neg other]
    · refine (added key present).imp_left (fun before => ?_)
      rw [get_delete] at before
      split at before
      · exact absurd rfl before
      · exact before
  | scan range next ih =>
    obtain ⟨l, answer, ran⟩ := ran
    exact ih l (body l (rule.inside m range l answer)) ran
  | probe range next ih =>
    obtain ⟨b, _, ran⟩ := ran
    exact ih b (body b) ran

end Kv.Program
