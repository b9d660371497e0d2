import Intreccio.Foundation.Program

/-! Bodies that only read: no path through them writes, whatever the store answers. They leave
every store as it is, so what they answer is a function of the store, and a sequence of them
answers what its parts answer one after the other.
-/

namespace Kv.Program

variable {κ ν ε α β : Type}

/-- Whatever the store answers, the body does not write, and where it succeeds its value meets
the condition.
-/
def ReadsTo (post : α → Prop) : Program κ ν ε α → Prop
  | ret a => post a
  | fail _ => True
  | get _ next => ∀ v, (next v).ReadsTo post
  | set _ _ _ => False
  | delete _ _ => False
  | scan _ next => ∀ l, (next l).ReadsTo post
  | probe _ next => ∀ b, (next b).ReadsTo post

/-- The body does not write, whatever the store answers. -/
def Reads (p : Program κ ν ε α) : Prop := p.ReadsTo (fun _ => True)

variable {p : Program κ ν ε α}

theorem ReadsTo.imp {post weaker : α → Prop} (reads : p.ReadsTo post) (weaken : ∀ a, post a → weaker a)
    : p.ReadsTo weaker := by
  induction p with
  | ret a => exact weaken a reads
  | fail _ => trivial
  | set _ _ _ _ | delete _ _ _ => exact reads.elim
  | get _ _ ih | scan _ _ ih | probe _ _ ih => exact fun answer => ih answer (reads answer)

variable {f : α → Program κ ν ε β} {post : α → Prop}

theorem ReadsTo.bind {later : β → Prop} (first : p.ReadsTo post)
    (rest : ∀ a, post a → (f a).ReadsTo later)
    : (p.bind f).ReadsTo later := by
  induction p with
  | ret a => exact rest a first
  | fail _ => trivial
  | set _ _ _ _ | delete _ _ _ => exact first.elim
  | get _ _ ih | scan _ _ ih | probe _ _ ih => exact fun answer => ih answer (first answer)

theorem ReadsTo.reads (reads : p.ReadsTo post) : p.Reads :=
  reads.imp (fun _ _ => trivial)

@[simp, grind ←] theorem reads_ret (a : α) : (ret a : Program κ ν ε α).Reads := trivial

@[simp, grind ←] theorem reads_fail (e : ε) : (fail e : Program κ ν ε α).Reads := trivial

@[grind ←] theorem reads_pure (a : α) : (pure a : Program κ ν ε α).Reads := trivial

@[grind ←] theorem reads_throw (e : ε) : (throw e : Program κ ν ε α).Reads := trivial

@[simp, grind ←] theorem reads_ofExcept (x : Except ε α) : (ofExcept x : Program κ ν ε α).Reads := by
  cases x with
  | ok a => exact reads_ret a
  | error e => exact reads_fail e

@[simp, grind ←] theorem reads_lookup (k : κ) : (lookup k : Program κ ν ε _).Reads := fun _ => trivial

@[simp, grind ←] theorem reads_entries (range : κ → Bool) : (entries range : Program κ ν ε _).Reads :=
  fun _ => trivial

theorem reads_ite {c : Prop} [Decidable c] {p q : Program κ ν ε α} (left : p.Reads) (right : q.Reads)
    : (if c then p else q).Reads := by
  split
  · exact left
  · exact right

@[grind ←] theorem Reads.bind (first : p.Reads) (rest : ∀ a, (f a).Reads) : (p.bind f).Reads :=
  ReadsTo.bind first (fun a _ => rest a)

@[grind ←] theorem Reads.handle {handler : ε → Program κ ν ε α} (body : p.Reads)
    (recover : ∀ e, (handler e).Reads)
    : (p.handle handler).Reads := by
  induction p with
  | ret a => exact reads_ret a
  | fail e => exact recover e
  | set _ _ _ _ | delete _ _ _ => exact body.elim
  | get _ _ ih | scan _ _ ih | probe _ _ ih => exact fun answer => ih answer (body answer)

/-- The body in a read-only transaction, where the first write is refused and ends it. -/
def view (refused : ε) : Program κ ν ε α → Program κ ν ε α
  | ret a => ret a
  | fail e => fail e
  | get k next => get k (fun v => (next v).view refused)
  | set _ _ _ => fail refused
  | delete _ _ => fail refused
  | scan range next => scan range (fun l => (next l).view refused)
  | probe range next => probe range (fun b => (next b).view refused)

theorem Reads.view_eq (reads : p.Reads) (refused : ε) : p.view refused = p := by
  induction p with
  | ret _ | fail _ => rfl
  | set _ _ _ _ | delete _ _ _ => exact reads.elim
  | get k next ih => exact congrArg (Program.get k) (funext fun v => ih v (reads v))
  | scan range next ih => exact congrArg (Program.scan range) (funext fun l => ih l (reads l))
  | probe range next ih => exact congrArg (Program.probe range) (funext fun b => ih b (reads b))

variable [LinearOrder κ] {m : OrderedMap κ ν}

def read (p : Program κ ν ε α) (m : OrderedMap κ ν) : Except ε α := (p.run m).1

theorem ReadsTo.still (reads : p.ReadsTo post) (m : OrderedMap κ ν) : (p.run m).2 = m := by
  induction p with
  | ret _ | fail _ => rfl
  | set _ _ _ _ | delete _ _ _ => exact reads.elim
  | get k next ih => exact ih (m.get k) (reads _)
  | scan range next ih => exact ih (m.select range) (reads _)
  | probe range next ih => exact ih (!(m.select range).isEmpty) (reads _)

theorem ReadsTo.answer {a : α} (reads : p.ReadsTo post) (answered : p.read m = .ok a) : post a := by
  induction p with
  | ret b => exact Except.ok.inj answered ▸ reads
  | fail e => cases answered
  | set _ _ _ _ | delete _ _ _ => exact reads.elim
  | get k next ih => exact ih (m.get k) (reads _) answered
  | scan range next ih => exact ih (m.select range) (reads _) answered
  | probe range next ih => exact ih (!(m.select range).isEmpty) (reads _) answered

theorem Reads.still (reads : p.Reads) (m : OrderedMap κ ν) : (p.run m).2 = m :=
  ReadsTo.still reads m

theorem run_bind (p : Program κ ν ε α) (f : α → Program κ ν ε β) (m : OrderedMap κ ν)
    : (p.bind f).run m
      = match p.run m with
        | (.ok a, mid) => (f a).run mid
        | (.error e, mid) => (.error e, mid) := by
  induction p generalizing m with
  | ret _ | fail _ => rfl
  | get _ _ ih | set _ _ _ ih | delete _ _ ih | scan _ _ ih | probe _ _ ih =>
    simp only [bind, run, ih]

theorem run_bind_of_ok {a : α} {mid : OrderedMap κ ν} (first : p.run m = (.ok a, mid))
    : (p.bind f).run m = (f a).run mid := by
  rw [run_bind, first]

theorem run_bind_ok {b : β} {after : OrderedMap κ ν}
    : (p.bind f).run m = (.ok b, after)
      ↔ ∃ a mid, p.run m = (.ok a, mid) ∧ (f a).run mid = (.ok b, after) := by
  obtain ⟨r, mid, ran⟩ : ∃ r mid, p.run m = (r, mid) := ⟨_, _, rfl⟩
  rw [run_bind, ran]
  cases r with
  | ok a => simp
  | error e => simp

@[simp] theorem read_ret (a : α) : (ret a : Program κ ν ε α).read m = .ok a := rfl

@[simp] theorem read_fail (e : ε) : (fail e : Program κ ν ε α).read m = .error e := rfl

@[simp] theorem read_ofExcept (x : Except ε α) : (ofExcept x : Program κ ν ε α).read m = x := by
  cases x <;> rfl

@[simp] theorem read_lookup (k : κ) : (lookup k : Program κ ν ε _).read m = .ok (m.get k) := rfl

@[simp] theorem read_entries (range : κ → Bool)
    : (entries range : Program κ ν ε _).read m = .ok (m.select range) :=
  rfl

theorem Reads.run_eq (reads : p.Reads) : p.run m = (p.read m, m) :=
  Prod.ext rfl (reads.still m)

theorem Reads.run_bind (reads : p.Reads)
    : (p.bind f).run m = match p.read m with
      | .ok a => (f a).run m
      | .error e => (.error e, m) := by
  rw [Program.run_bind, reads.run_eq]
  cases p.read m <;> rfl

@[simp] theorem read_bind (reads : p.Reads)
    : (p.bind f).read m = (p.read m).bind (fun a => (f a).read m) := by
  rw [read, reads.run_bind]
  cases p.read m <;> rfl

/-- A body that only reads is handled in the store in which it fails. -/
theorem read_handle {handler : ε → Program κ ν ε α} (reads : p.Reads)
    : (p.handle handler).read m = match p.read m with
      | .ok a => .ok a
      | .error e => (handler e).read m := by
  induction p with
  | ret _ | fail _ => rfl
  | set _ _ _ _ | delete _ _ _ => exact reads.elim
  | get k next ih => exact ih (m.get k) (reads _)
  | scan range next ih => exact ih (m.select range) (reads _)
  | probe range next ih => exact ih (!(m.select range).isEmpty) (reads _)

theorem read_bind_of_ok {a : α} (reads : p.Reads) (first : p.read m = .ok a)
    : (p.bind f).read m = (f a).read m := by
  rw [read_bind reads, first]
  rfl

theorem read_bind_of_error {e : ε} (reads : p.Reads) (first : p.read m = .error e)
    : (p.bind f).read m = .error e := by
  rw [read_bind reads, first]
  rfl

theorem read_bind_ok {b : β} (reads : p.Reads)
    : (p.bind f).read m = .ok b ↔ ∃ a, p.read m = .ok a ∧ (f a).read m = .ok b := by
  rw [read_bind reads]
  cases p.read m with
  | ok a => simp [Except.bind]
  | error e => simp [Except.bind]

end Kv.Program
