import Intreccio.Foundation.OrderedMap

/-! Transaction bodies as programs over an ordered key-value store.
A body only reaches the store through lookups, writes, range scans and emptiness probes, so
one body can be run on the store itself, on a snapshot, or under a weaker scan rule.
-/

namespace Kv

open List

/-- A body that reads and writes an ordered store and ends in a value or an error.
`scan` hands every entry of its range to the body; `probe` only tells whether there is one.
-/
inductive Program (κ ν ε α : Type) where
  | ret (a : α)
  | fail (e : ε)
  | get (k : κ) (next : Option ν → Program κ ν ε α)
  | set (k : κ) (v : ν) (next : Program κ ν ε α)
  | delete (k : κ) (next : Program κ ν ε α)
  | scan (range : κ → Bool) (next : List (κ × ν) → Program κ ν ε α)
  | probe (range : κ → Bool) (next : Bool → Program κ ν ε α)

namespace Program

variable {κ ν ε α β : Type}

def bind : Program κ ν ε α → (α → Program κ ν ε β) → Program κ ν ε β
  | ret a, f => f a
  | fail e, _ => fail e
  | get k next, f => get k (fun v => (next v).bind f)
  | set k v next, f => set k v (next.bind f)
  | delete k next, f => delete k (next.bind f)
  | scan range next, f => scan range (fun l => (next l).bind f)
  | probe range next, f => probe range (fun b => (next b).bind f)

instance : Monad (Program κ ν ε) where
  pure := ret
  bind := bind

/-- Continue with `handler` where the body fails; the writes made so far stay. -/
def handle (handler : ε → Program κ ν ε α) : Program κ ν ε α → Program κ ν ε α
  | ret a => ret a
  | fail e => handler e
  | get k next => get k (fun v => (next v).handle handler)
  | set k v next => set k v (next.handle handler)
  | delete k next => delete k (next.handle handler)
  | scan range next => scan range (fun l => (next l).handle handler)
  | probe range next => probe range (fun b => (next b).handle handler)

instance : MonadExceptOf ε (Program κ ν ε) where
  throw := fail
  tryCatch := fun p handler => p.handle handler

@[simp, grind =] theorem pure_eq (a : α) : (pure a : Program κ ν ε α) = ret a := rfl

@[simp, grind =] theorem bind_eq (p : Program κ ν ε α) (f : α → Program κ ν ε β) : p >>= f = p.bind f := rfl

@[simp, grind =] theorem throw_eq (e : ε) : (throw e : Program κ ν ε α) = fail e := rfl

theorem bind_ret (p : Program κ ν ε α) : p.bind ret = p := by
  induction p with
  | ret _ | fail _ => rfl
  | get _ _ ih | scan _ _ ih | probe _ _ ih => simp only [bind, ih]
  | set _ _ _ ih | delete _ _ ih => simp only [bind, ih]

theorem bind_assoc {γ : Type} (p : Program κ ν ε α) (f : α → Program κ ν ε β)
    (g : β → Program κ ν ε γ)
    : (p.bind f).bind g = p.bind (fun a => (f a).bind g) := by
  induction p with
  | ret _ | fail _ => rfl
  | get _ _ ih | scan _ _ ih | probe _ _ ih => simp only [bind, ih]
  | set _ _ _ ih | delete _ _ ih => simp only [bind, ih]

instance : LawfulMonad (Program κ ν ε) :=
  LawfulMonad.mk' _ bind_ret (fun _ _ => rfl) bind_assoc

/-- A computation that does not touch the store. -/
def ofExcept : Except ε α → Program κ ν ε α
  | .ok a => ret a
  | .error e => fail e

@[simp] theorem ofExcept_ok_bind (a : α) (f : α → Program κ ν ε β)
    : (ofExcept (.ok a)).bind f = f a := rfl

def lookup (k : κ) : Program κ ν ε (Option ν) := get k ret

def write (k : κ) (v : ν) : Program κ ν ε Unit := set k v (ret ())

def erase (k : κ) : Program κ ν ε Unit := delete k (ret ())

def entries (range : κ → Bool) : Program κ ν ε (List (κ × ν)) := scan range ret

def occupied (range : κ → Bool) : Program κ ν ε Bool := probe range ret

/-- The body for each item in turn, stopping at the first failure. -/
def each (items : List α) (body : α → Program κ ν ε Unit) : Program κ ν ε Unit :=
  match items with
  | [] => ret ()
  | a :: rest => (body a).bind (fun _ => each rest body)

variable [LinearOrder κ]

/-- The result and the store a body leaves behind, writes made before an error included. -/
def run : Program κ ν ε α → OrderedMap κ ν → Except ε α × OrderedMap κ ν
  | ret a, m => (.ok a, m)
  | fail e, m => (.error e, m)
  | get k next, m => (next (m.get k)).run m
  | set k v next, m => next.run (m.set k v)
  | delete k next, m => next.run (m.delete k)
  | scan range next, m => (next (m.select range)).run m
  | probe range next, m => (next (!(m.select range).isEmpty)).run m

/-- What a scan and a probe of a range may answer on a store; a scan stays in its range. -/
structure ScanRule (κ ν : Type) [LinearOrder κ] where
  scan : OrderedMap κ ν → (κ → Bool) → List (κ × ν) → Prop
  probe : OrderedMap κ ν → (κ → Bool) → Bool → Prop
  inside : ∀ m range l, scan m range l → ∀ e ∈ l, range e.1 = true

/-- Scans and probes report the range as it is. -/
def ScanRule.exact : ScanRule κ ν where
  scan := fun m range l => l = m.select range
  probe := fun m range b => b = !(m.select range).isEmpty
  inside := by
    rintro m range _ rfl ⟨k, v⟩ member
    exact (OrderedMap.mem_select.mp member).2

variable {range : κ → Bool}

@[simp] theorem ScanRule.exact_scan {m : OrderedMap κ ν} {l : List (κ × ν)}
    : ScanRule.exact.scan m range l ↔ l = m.select range :=
  Iff.rfl

@[simp] theorem ScanRule.exact_probe {m : OrderedMap κ ν} {b : Bool}
    : ScanRule.exact.probe m range b ↔ b = !(m.select range).isEmpty :=
  Iff.rfl

/-- `p.Exec rule m r m'`: under `rule`, the body may end with `r` and leave the store `m'`. -/
def Exec (rule : ScanRule κ ν)
    : Program κ ν ε α → OrderedMap κ ν → Except ε α → OrderedMap κ ν → Prop
  | ret a, m, r, m' => r = .ok a ∧ m' = m
  | fail e, m, r, m' => r = .error e ∧ m' = m
  | get k next, m, r, m' => (next (m.get k)).Exec rule m r m'
  | set k v next, m, r, m' => next.Exec rule (m.set k v) r m'
  | delete k next, m, r, m' => next.Exec rule (m.delete k) r m'
  | scan range next, m, r, m' => ∃ l, rule.scan m range l ∧ (next l).Exec rule m r m'
  | probe range next, m, r, m' => ∃ b, rule.probe m range b ∧ (next b).Exec rule m r m'

variable {p : Program κ ν ε α} {b : β} {a : α} {k : κ}

theorem exec_exact_iff {m m' : OrderedMap κ ν} {r : Except ε α}
    : p.Exec .exact m r m' ↔ p.run m = (r, m') := by
  induction p generalizing m with
  | ret _ | fail _ => simp [Exec, run, eq_comm]
  | get _ _ ih | set _ _ _ ih | delete _ _ ih => simp only [Exec, run, ih]
  | scan _ _ ih | probe _ _ ih => simp only [Exec, run, ScanRule.exact_scan,
      ScanRule.exact_probe, exists_eq_left, ih]

section Sequencing

variable {rule : ScanRule κ ν} {m m' : OrderedMap κ ν}

variable {f : α → Program κ ν ε β}

/-- A sequence succeeds exactly when both halves do, through some store in between. -/
theorem exec_bind_ok
    : (p.bind f).Exec rule m (.ok b) m'
      ↔ ∃ a mid, p.Exec rule m (.ok a) mid ∧ (f a).Exec rule mid (.ok b) m' := by
  induction p generalizing m with
  | ret a => simp [bind, Exec]
  | fail e => simp [bind, Exec]
  | get _ _ ih | set _ _ _ ih | delete _ _ ih => simp only [bind, Exec, ih]
  | scan _ _ ih | probe _ _ ih =>
    simp only [bind, Exec, ih]
    constructor
    · rintro ⟨l, hl, a, mid, hp, hf⟩
      exact ⟨a, mid, ⟨l, hl, hp⟩, hf⟩
    · rintro ⟨a, mid, ⟨l, hl, hp⟩, hf⟩
      exact ⟨l, hl, a, mid, hp, hf⟩

@[simp] theorem exec_ret {b : α} : (ret a : Program κ ν ε α).Exec rule m (.ok b) m' ↔ b = a ∧ m' = m := by
  change (Except.ok b = Except.ok a ∧ m' = m) ↔ _
  rw [Except.ok.injEq]

@[simp] theorem exec_fail {e : ε} {b : α} : (fail e : Program κ ν ε α).Exec rule m (.ok b) m' ↔ False :=
  iff_false_intro (fun failed => nomatch failed.1)

@[simp] theorem exec_ofExcept {x : Except ε α}
    : (ofExcept x : Program κ ν ε α).Exec rule m (.ok a) m' ↔ x = .ok a ∧ m' = m := by
  cases x with
  | ok b => simp [ofExcept, eq_comm]
  | error e => simp [ofExcept]

variable {u : Unit}

@[simp] theorem exec_write {v : ν}
    : (write k v : Program κ ν ε _).Exec rule m (.ok u) m' ↔ m' = m.set k v := by
  change (ret ()).Exec rule (m.set k v) (.ok u) m' ↔ _
  exact exec_ret.trans (and_iff_right rfl)

@[simp] theorem exec_erase : (erase k : Program κ ν ε _).Exec rule m (.ok u) m' ↔ m' = m.delete k := by
  change (ret ()).Exec rule (m.delete k) (.ok u) m' ↔ _
  exact exec_ret.trans (and_iff_right rfl)

@[simp] theorem exec_entries {l : List (κ × ν)}
    : (entries range : Program κ ν ε _).Exec rule m (.ok l) m'
      ↔ rule.scan m range l ∧ m' = m := by
  constructor
  · rintro ⟨found, hl, heq, hm⟩
    obtain rfl := Except.ok.inj heq
    exact ⟨hl, hm⟩
  · exact fun ⟨hl, hm⟩ => ⟨l, hl, rfl, hm⟩

@[simp] theorem exec_occupied {b : Bool}
    : (occupied range : Program κ ν ε _).Exec rule m (.ok b) m'
      ↔ rule.probe m range b ∧ m' = m := by
  constructor
  · rintro ⟨found, hl, heq, hm⟩
    obtain rfl := Except.ok.inj heq
    exact ⟨hl, hm⟩
  · exact fun ⟨hl, hm⟩ => ⟨b, hl, rfl, hm⟩

/-- A handled body succeeds by itself, or fails and its handler succeeds. -/
theorem exec_handle_ok {handler : ε → Program κ ν ε α}
    : (p.handle handler).Exec rule m (.ok a) m'
      ↔ p.Exec rule m (.ok a) m'
        ∨ ∃ e mid, p.Exec rule m (.error e) mid ∧ (handler e).Exec rule mid (.ok a) m' := by
  induction p generalizing m with
  | ret b => simp [handle, Exec]
  | fail e => simp [handle, Exec]
  | get _ _ ih | set _ _ _ ih | delete _ _ ih => simp only [handle, Exec, ih]
  | scan _ _ ih | probe _ _ ih =>
    simp only [handle, Exec, ih]
    constructor
    · rintro ⟨l, hl, direct | ⟨e, mid, failed, recovered⟩⟩
      · exact .inl ⟨l, hl, direct⟩
      · exact .inr ⟨e, mid, ⟨l, hl, failed⟩, recovered⟩
    · rintro (⟨l, hl, direct⟩ | ⟨e, mid, ⟨l, hl, failed⟩, recovered⟩)
      · exact ⟨l, hl, .inl direct⟩
      · exact ⟨l, hl, .inr ⟨e, mid, failed, recovered⟩⟩

-- An operation followed by the rest of a body is executed on the spot, with no store between.

variable {r : Except ε β}

@[simp] theorem exec_lookup_bind {f : Option ν → Program κ ν ε β}
    : ((lookup k).bind f).Exec rule m r m' ↔ (f (m.get k)).Exec rule m r m' :=
  Iff.rfl

@[simp] theorem exec_write_bind {v : ν} {f : Unit → Program κ ν ε β}
    : ((write k v).bind f).Exec rule m r m' ↔ (f ()).Exec rule (m.set k v) r m' :=
  Iff.rfl

@[simp] theorem exec_erase_bind {f : Unit → Program κ ν ε β}
    : ((erase k).bind f).Exec rule m r m' ↔ (f ()).Exec rule (m.delete k) r m' :=
  Iff.rfl

@[simp] theorem exec_ret_bind : ((ret a).bind f).Exec rule m r m' ↔ (f a).Exec rule m r m' :=
  Iff.rfl

@[simp] theorem exec_fail_bind {e : ε}
    : ((fail e : Program κ ν ε α).bind f).Exec rule m (.ok b) m' ↔ False := by
  change (fail e).Exec rule m (.ok b) m' ↔ False
  exact exec_fail

@[simp] theorem exec_ofExcept_bind {x : Except ε α}
    : ((ofExcept x).bind f).Exec rule m (.ok b) m'
      ↔ ∃ a, x = .ok a ∧ (f a).Exec rule m (.ok b) m' := by
  cases x with
  | ok a => simp [ofExcept]
  | error e => simp [ofExcept]

variable {body : α → Program κ ν ε Unit}

@[simp] theorem exec_each_nil : (each [] body).Exec rule m (.ok u) m' ↔ m' = m := by
  simp [each]

theorem exec_each_cons {rest : List α}
    : (each (a :: rest) body).Exec rule m (.ok u) m'
      ↔ ∃ mid, (body a).Exec rule m (.ok ()) mid ∧ (each rest body).Exec rule mid (.ok ()) m' := by
  simp only [each, exec_bind_ok]
  constructor
  · rintro ⟨_, mid, first, more⟩
    exact ⟨mid, first, more⟩
  · rintro ⟨mid, first, more⟩
    exact ⟨(), mid, first, more⟩

theorem get_each_erase {items : List (κ × ν)}
    (ran : (each items (fun e => erase e.1) : Program κ ν ε Unit).Exec rule m (.ok u) m') (k : κ)
    : m'.get k = if k ∈ items.map Prod.fst then none else m.get k := by
  induction items generalizing m with
  | nil =>
    rw [exec_each_nil] at ran
    simp [ran]
  | cons e rest ih =>
    obtain ⟨mid, first, more⟩ := exec_each_cons.mp ran
    rw [exec_erase] at first
    rw [ih more, first, OrderedMap.get_delete]
    by_cases here : k = e.1 <;> simp only [map_cons, mem_cons, here, true_or, false_or,
      if_true, if_false, ite_self]

/-- The invariant rule of a loop: what holds with all items to come, and moves over each
item, holds at the end.
-/
theorem exec_each_invariant {items : List α} (inv : List α → OrderedMap κ ν → Prop)
    (step : ∀ a rest mid after, a :: rest <:+ items → inv (a :: rest) mid → (body a).Exec rule mid (.ok ()) after → inv rest after)
    (start : inv items m) (ran : (each items body).Exec rule m (.ok u) m')
    : inv [] m' := by
  induction items generalizing m with
  | nil =>
    rw [exec_each_nil] at ran
    exact ran ▸ start
  | cons a rest ih =>
    obtain ⟨mid, first, more⟩ := exec_each_cons.mp ran
    have moved := step a rest m mid suffix_rfl start first
    exact ih (fun b tail mid after suffix =>
      step b tail mid after (suffix.trans (suffix_cons a rest))) moved more

end Sequencing

end Program

end Kv
