import Intreccio.Foundation.Overwrite
import Mathlib.Data.List.TakeWhile

/-! Merging a sorted list of entries with a sorted list of writes: a write hides the entry with the
same key, and a deletion hides itself as well. The merge lists what the writes leave of the map.
-/

namespace Kv

open List

variable {κ ν : Type} [LinearOrder κ]

/-- The entries below the first write, then what the write leaves, then the rest. -/
def merge : List (κ × ν) → List (Write κ ν) → List (κ × ν)
  | base, [] => base
  | base, (k, v) :: writes =>
    base.takeWhile (fun e => e.1 < k) ++ (v.map (fun v => (k, v))).toList
      ++ merge (base.dropWhile (fun e => e.1 ≤ k)) writes

variable {base : List (κ × ν)} {writes : List (Write κ ν)} {k : κ} {v : Option ν} {e : κ × ν}

@[simp] theorem merge_nil (base : List (κ × ν)) : merge base ([] : List (Write κ ν)) = base := rfl

theorem merge_below (below : ∀ w ∈ writes.head?, e.1 < w.1)
    : merge (e :: base) writes = e :: merge base writes := by
  cases writes with
  | nil => rfl
  | cons w rest =>
    have first : e.1 < w.1 := below w rfl
    simp [merge, first, first.le]

theorem merge_append {front : List (κ × ν)} (below : ∀ e ∈ front, ∀ w ∈ writes.head?, e.1 < w.1)
    : merge (front ++ base) writes = front ++ merge base writes := by
  induction front with
  | nil => rfl
  | cons e rest ih =>
    rw [cons_append, merge_below (below e (by simp)), ih (fun e member => below e (by simp [member])),
      cons_append]

theorem merge_write (above : ∀ e ∈ base.head?, k < e.1)
    : merge base ((k, v) :: writes) = (v.map (fun v => (k, v))).toList ++ merge base writes := by
  cases base with
  | nil => simp [merge]
  | cons e rest =>
    have first : k < e.1 := above e rfl
    simp [merge, first.not_gt, first.not_ge]

theorem merge_shadowed {w : ν} (above : ∀ e ∈ base.head?, k < e.1)
    : merge ((k, w) :: base) ((k, v) :: writes) = merge base ((k, v) :: writes) := by
  rw [merge_write above]
  have kept : base.dropWhile (fun e => decide (e.1 ≤ k)) = base := by
    cases base with
    | nil => rfl
    | cons e rest =>
      have first : k < e.1 := above e rfl
      simp [first.not_ge]
  simp [merge, kept]

/-- Where a predicate that fails keeps failing, taking while it holds is filtering. -/
theorem takeWhile_eq_filter {α : Type} {p : α → Bool} {l : List α}
    (closed : l.Pairwise (fun a b => p b = true → p a = true))
    : l.takeWhile p = l.filter p := by
  induction l with
  | nil => rfl
  | cons a rest ih =>
    obtain ⟨before, others⟩ := pairwise_cons.mp closed
    cases holds : p a with
    | true => rw [takeWhile_cons_of_pos holds, filter_cons_of_pos holds, ih others]
    | false =>
      have none' : rest.filter p = [] := by
        rw [filter_eq_nil_iff]
        intro b member later
        simp [before b member later] at holds
      rw [takeWhile_cons_of_neg (by simp [holds]), filter_cons_of_neg (by simp [holds]), none']

namespace OrderedMap

/-- Sorting the entries of a map, however they were collected, gives the map's own order. -/
theorem sort_perm (m : OrderedMap κ ν) {collected : List (κ × ν)} (perm : collected.Perm m.entries)
    : collected.insertionSort (fun a b => a.1 ≤ b.1) = m.entries := by
  have distinct : (m.entries.map Prod.fst).Nodup := pairwise_map.mpr (m.sorted.imp ne_of_lt)
  rw [insertionSort_of_perm perm distinct, insertionSort_of_sorted m.sorted]

variable {entries : List (κ × ν)}

theorem dropWhile_above (above : ∀ e ∈ entries, k < e.1)
    : entries.dropWhile (fun e => e.1 ≤ k) = entries := by
  cases entries with
  | nil => rfl
  | cons e rest =>
    have first : k < e.1 := above e (by simp)
    simp [first.not_ge]

/-- Insertion into a sorted list, by what lies below and above. -/
theorem insertEntry_split (k : κ) (v : ν) (sorted : entries.Pairwise (fun a b => a.1 < b.1))
    : insertEntry k v entries
      = entries.takeWhile (fun e => e.1 < k) ++ (k, v) :: entries.dropWhile (fun e => e.1 ≤ k) := by
  induction entries with
  | nil => rfl
  | cons e rest ih =>
    obtain ⟨above, others⟩ := pairwise_cons.mp sorted
    rcases lt_trichotomy k e.1 with below | here | past
    · simp [insertEntry, below, below.not_gt, below.not_ge]
    · subst here
      simp [insertEntry, dropWhile_above above]
    · simp [insertEntry, past, past.le, past.not_gt, past.ne', ih others]

theorem filter_ne_split (k : κ) (sorted : entries.Pairwise (fun a b => a.1 < b.1))
    : entries.filter (fun e => e.1 ≠ k)
      = entries.takeWhile (fun e => e.1 < k) ++ entries.dropWhile (fun e => e.1 ≤ k) := by
  induction entries with
  | nil => rfl
  | cons e rest ih =>
    obtain ⟨above, others⟩ := pairwise_cons.mp sorted
    have kept (beyond : ∀ e ∈ rest, k < e.1) : rest.filter (fun e => e.1 ≠ k) = rest :=
      filter_eq_self.mpr (fun e member => by simpa using (beyond e member).ne')
    rcases lt_trichotomy k e.1 with below | here | past
    · rw [filter_cons_of_pos (by simpa using below.ne'), kept (fun e member => below.trans (above e member))]
      simp [below.not_gt, below.not_ge]
    · subst here
      rw [filter_cons_of_neg (by simp), kept above]
      simp [dropWhile_above above]
    · rw [filter_cons_of_pos (by simpa using past.ne), ih others]
      simp [past, past.le]

/-- What one write leaves: the entries below it, its own, and those above. -/
theorem put_entries (m : OrderedMap κ ν) (k : κ) (v : Option ν)
    : (m.put (k, v)).entries
      = m.entries.takeWhile (fun e => e.1 < k) ++ (v.map (fun v => (k, v))).toList
        ++ m.entries.dropWhile (fun e => e.1 ≤ k) := by
  cases v with
  | none =>
    simp only [Option.map_none, Option.toList_none, append_nil]
    exact filter_ne_split k m.sorted
  | some v =>
    simp only [Option.map_some, Option.toList_some, append_assoc, singleton_append]
    exact insertEntry_split k v m.sorted

/-- The merge lists the overwritten map. -/
theorem merge_entries (m : OrderedMap κ ν) {writes : List (Write κ ν)}
    (sorted : writes.Pairwise (fun a b => a.1 < b.1))
    : merge m.entries writes = (m.overwrite writes).entries := by
  induction writes generalizing m with
  | nil => rfl
  | cons w rest ih =>
    obtain ⟨k, v⟩ := w
    obtain ⟨above, others⟩ := pairwise_cons.mp sorted
    rw [overwrite_cons, ← ih (m.put (k, v)) others, put_entries, merge]
    refine (merge_append (fun e member w next => ?_)).symm
    have past : k < w.1 := above w (mem_of_mem_head? next)
    rcases mem_append.mp member with below | own
    · have small : e.1 < k := by simpa using mem_takeWhile_imp below
      exact small.trans past
    · obtain ⟨_, _, rfl⟩ : ∃ u, v = some u ∧ (k, u) = e := by simpa using own
      exact past

/-- The map with the keys outside a range left out. -/
def restrict (m : OrderedMap κ ν) (p : κ → Bool) : OrderedMap κ ν := ⟨m.select p, m.select_sorted p⟩

theorem get_restrict (m : OrderedMap κ ν) (p : κ → Bool) (k : κ)
    : (m.restrict p).get k = if p k then m.get k else none := by
  ext v
  rw [get_eq_some_iff, show (m.restrict p).entries = m.select p from rfl, mem_select]
  split <;> simp_all

/-- Only the writes inside the range matter to it. -/
theorem restrict_overwrite (m : OrderedMap κ ν) (p : κ → Bool) (writes : List (Write κ ν))
    : (m.overwrite writes).restrict p = (m.restrict p).overwrite (writes.filter (fun w => p w.1)) := by
  induction writes generalizing m with
  | nil => rfl
  | cons w rest ih =>
    rw [overwrite_cons, ih, filter_cons]
    have step : (m.put w).restrict p = if p w.1 then (m.restrict p).put w else m.restrict p := by
      ext1 k
      by_cases here : k = w.1
      · subst here
        split <;> simp_all [get_restrict, get_put]
      · split <;> simp [get_restrict, get_put, here]
    rw [step]
    split <;> rfl

/-- A scan of the overwritten map, from a scan of the map and the writes inside the range. -/
theorem select_overwrite (m : OrderedMap κ ν) (p : κ → Bool) {writes : List (Write κ ν)}
    (sorted : writes.Pairwise (fun a b => a.1 < b.1))
    : (m.overwrite writes).select p = merge (m.select p) (writes.filter (fun w => p w.1)) := by
  calc (m.overwrite writes).select p
      = ((m.overwrite writes).restrict p).entries := rfl
    _ = ((m.restrict p).overwrite (writes.filter (fun w => p w.1))).entries := by
        rw [restrict_overwrite]
    _ = merge (m.select p) (writes.filter (fun w => p w.1)) :=
        (merge_entries (m.restrict p) (sorted.filter _)).symm

end OrderedMap

end Kv
