import Intreccio.Foundation.Overwrite
import Intreccio.Foundation.Program

/-! Optimistic transactions: a body reads a snapshot and its own writes, and commits when no key it
looked up or was handed by a scan was written meanwhile. That a range holds no further key is not
validated. So a commit is an execution on the newest store in which only the lookups answer as they
should; it is the body's run on that store when nothing was written inside the ranges it scanned.
-/

namespace Kv

open OrderedMap List

variable {κ ν ε α ι : Type} [LinearOrder κ]

namespace Program

/-- Scans and probes may answer anything within their range; only lookups are trusted. -/
def ScanRule.loose : ScanRule κ ν where
  scan := fun _ range l => ∀ e ∈ l, range e.1 = true
  probe := fun _ _ _ => True
  inside := fun _ _ _ answer => answer

/-- What a body did on its snapshot: the keys it looked up there or was handed by a scan, the ranges
it scanned, and its writes.
-/
structure Trace (κ ν : Type) where
  reads : List κ
  ranges : List (κ → Bool)
  writes : List (Write κ ν)

/-- The trace of a body after the writes `own`. What it has written itself it does not look up, and
a probe is handed no key.
-/
def trace (base : OrderedMap κ ν) : Program κ ν ε α → List (Write κ ν) → Trace κ ν
  | ret _, own => ⟨[], [], own⟩
  | fail _, own => ⟨[], [], own⟩
  | get k next, own =>
    let rest := (next ((base.overwrite own).get k)).trace base own
    { rest with reads := if k ∈ written own then rest.reads else k :: rest.reads }
  | set k v next, own => next.trace base (own ++ [(k, some v)])
  | delete k next, own => next.trace base (own ++ [(k, none)])
  | scan range next, own =>
    let found := (base.overwrite own).select range
    let rest := (next found).trace base own
    { rest with reads := found.map Prod.fst ++ rest.reads, ranges := range :: rest.ranges }
  | probe range next, own =>
    let rest := (next (!((base.overwrite own).select range).isEmpty)).trace base own
    { rest with ranges := range :: rest.ranges }

/-- On a store that has the keys read as the snapshot has them, the body can do what it did on the
snapshot. By induction on the body, for any writes made before.
-/
theorem exec_trace {p : Program κ ν ε α} {base now : OrderedMap κ ν} (own : List (Write κ ν))
    (same : ∀ k ∈ (p.trace base own).reads, now.get k = base.get k)
    : p.Exec .loose (now.overwrite own) (p.run (base.overwrite own)).1
      (now.overwrite (p.trace base own).writes) := by
  induction p generalizing own with
  | ret _ | fail _ => exact ⟨rfl, rfl⟩
  | get k next ih =>
    have answer : (now.overwrite own).get k = (base.overwrite own).get k :=
      get_overwrite_congr (fun absent => same k (by simp [trace, absent]))
    simp only [Exec, run, trace, answer]
    refine ih _ own (fun key looked => same key ?_)
    simp only [trace]
    split
    · exact looked
    · exact mem_cons_of_mem k looked
  | set k v next ih | delete k next ih =>
    have rest := ih _ same
    rwa [overwrite_append, overwrite_append] at rest
  | scan range next ih =>
    exact ⟨_, fun e member => (mem_select.mp member).2,
      ih _ own (fun k read => same k (mem_append_right _ read))⟩
  | probe range next ih => exact ⟨_, trivial, ih _ own same⟩

/-- A range answers alike on stores that agree inside it. -/
theorem select_congr {m n : OrderedMap κ ν} {range : κ → Bool}
    (agree : ∀ k, range k = true → m.get k = n.get k)
    : m.select range = n.select range := by
  refine entries_ext (select_sorted m range) (select_sorted n range) (fun ⟨k, v⟩ => ?_)
  rw [mem_select, mem_select]
  exact and_congr_left (fun inside => by rw [agree k inside])

/-- On a store that agrees with the snapshot also inside the ranges scanned, the body does what it
did on the snapshot.
-/
theorem run_trace {p : Program κ ν ε α} {base now : OrderedMap κ ν} (own : List (Write κ ν))
    (same : ∀ k ∈ (p.trace base own).reads, now.get k = base.get k)
    (quiet : ∀ range ∈ (p.trace base own).ranges, ∀ k, range k = true → now.get k = base.get k)
    : p.run (now.overwrite own)
      = ((p.run (base.overwrite own)).1, now.overwrite (p.trace base own).writes) := by
  have answers {range : κ → Bool} (inside : ∀ k, range k = true → now.get k = base.get k)
      : (now.overwrite own).select range = (base.overwrite own).select range :=
    select_congr (fun k within => get_overwrite_congr (fun _ => inside k within))
  induction p generalizing own with
  | ret _ | fail _ => rfl
  | get k next ih =>
    have answer : (now.overwrite own).get k = (base.overwrite own).get k :=
      get_overwrite_congr (fun absent => same k (by simp [trace, absent]))
    simp only [run, trace, answer]
    refine ih _ own (fun key looked => same key ?_) quiet answers
    simp only [trace]
    split
    · exact looked
    · exact mem_cons_of_mem k looked
  | set k v next ih | delete k next ih =>
    have rest := ih _ same quiet (fun inside =>
      select_congr (fun k within => get_overwrite_congr (fun _ => inside k within)))
    rwa [overwrite_append, overwrite_append] at rest
  | scan range next ih =>
    simp only [run, trace, answers (quiet range mem_cons_self)]
    exact ih _ own (fun k read => same k (mem_append_right _ read))
      (fun r later => quiet r (mem_cons_of_mem _ later)) answers
  | probe range next ih =>
    simp only [run, trace, answers (quiet range mem_cons_self)]
    exact ih _ own same (fun r later => quiet r (mem_cons_of_mem _ later)) answers

end Program

/-- A transaction that committed, with its result and its writes. -/
structure Commit (κ ν ι α : Type) where
  txn : ι
  result : α
  writes : List (Write κ ν)

/-- The store after the commits, of which the newest comes first. -/
def settled (initial : OrderedMap κ ν) : List (Commit κ ν ι α) → OrderedMap κ ν
  | [] => initial
  | c :: before => (settled initial before).overwrite c.writes

/-- No commit wrote a key inside a range that the transaction scanned. -/
def Quiet (t : Program.Trace κ ν) (since : List (Commit κ ν ι α)) : Prop :=
  ∀ range ∈ t.ranges, ∀ c ∈ since, ∀ k ∈ written c.writes, range k = false

/-- The commits of concurrent transactions. Each read the store as it was after `before`, and no key
it read there was written by the commits `since`; an attempt that is refused leaves nothing. `meets`
is what is asked of each commit beyond that.
-/
inductive Interleaved (code : ι → Program κ ν ε α)
    (meets : ι → Program.Trace κ ν → List (Commit κ ν ι α) → Prop) (initial : OrderedMap κ ν)
    : List (Commit κ ν ι α) → Prop
  | start : Interleaved code meets initial []
  | commit {since before : List (Commit κ ν ι α)} {txn : ι} {a : α} {view : OrderedMap κ ν}
      (history : Interleaved code meets initial (since ++ before))
      (ran : (code txn).run (settled initial before) = (.ok a, view))
      (valid : ∀ k ∈ ((code txn).trace (settled initial before) []).reads, ∀ c ∈ since, k ∉ written c.writes)
      (met : meets txn ((code txn).trace (settled initial before) []) since)
      : Interleaved code meets initial
        (⟨txn, a, ((code txn).trace (settled initial before) []).writes⟩ :: (since ++ before))

variable {code : ι → Program κ ν ε α} {initial : OrderedMap κ ν}
  {meets : ι → Program.Trace κ ν → List (Commit κ ν ι α) → Prop}

/-- A key that no later commit wrote still has its value. -/
theorem get_settled {since before : List (Commit κ ν ι α)} {k : κ}
    (unwritten : ∀ c ∈ since, k ∉ written c.writes)
    : (settled initial (since ++ before)).get k = (settled initial before).get k := by
  induction since with
  | nil => rfl
  | cons c rest ih =>
    rw [cons_append, settled, get_overwrite_of_notMem (unwritten c mem_cons_self)]
    exact ih (fun c' member => unwritten c' (mem_cons_of_mem c member))

/-- The invariant rule. A commit is an execution with trusted lookups on the newest store, and the
run of its body there if the ranges it scanned were quiet.
-/
theorem Interleaved.rule {P : List (Commit κ ν ι α) → Prop} {commits : List (Commit κ ν ι α)}
    (interleaved : Interleaved code meets initial commits) (start : P [])
    (step : ∀ c before, P before
      → (code c.txn).Exec .loose (settled initial before) (.ok c.result) (settled initial (c :: before))
      → (∃ t since, meets c.txn t since ∧ (Quiet t since
        → (code c.txn).Exec .exact (settled initial before) (.ok c.result) (settled initial (c :: before))))
      → P (c :: before))
    : P commits := by
  induction interleaved with
  | start => exact start
  | @commit since before txn a view _ ran valid met ih =>
    have same (k : κ) (read : k ∈ ((code txn).trace (settled initial before) []).reads)
        : (settled initial (since ++ before)).get k = (settled initial before).get k :=
      get_settled (valid k read)
    have done := Program.exec_trace [] same
    rw [overwrite_nil, overwrite_nil, ran] at done
    refine step _ _ ih done ⟨_, since, met, fun quiet => ?_⟩
    have again := Program.run_trace [] same (fun range scanned k inside => get_settled (fun c member wrote =>
      Bool.false_ne_true ((quiet range scanned c member k wrote).symm.trans inside)))
    rw [overwrite_nil, overwrite_nil, ran] at again
    exact Program.exec_exact_iff.mpr again

end Kv
