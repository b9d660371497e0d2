import Mathlib.Data.List.Sort
import Mathlib.Data.List.Lex

/-! Finite maps over a linearly ordered key type, kept as strictly sorted association lists.
Sortedness is a field, so a map is determined by its lookups and a range scan has one order.
-/

namespace Kv

open List

/-- A finite map whose entries are listed in strictly increasing key order. -/
structure OrderedMap (κ ν : Type) [LinearOrder κ] where
  entries : List (κ × ν)
  sorted : entries.Pairwise (fun a b => a.1 < b.1)

namespace OrderedMap

variable {κ ν : Type} [LinearOrder κ]

def find (k : κ) : List (κ × ν) → Option ν
  | [] => none
  | (key, v) :: rest => if k = key then some v else find k rest

/-- Ordered insertion, replacing an entry with the same key. -/
def insertEntry (k : κ) (v : ν) : List (κ × ν) → List (κ × ν)
  | [] => [(k, v)]
  | (key, w) :: rest =>
    if k < key then (k, v) :: (key, w) :: rest
    else if k = key then (k, v) :: rest
    else (key, w) :: insertEntry k v rest

variable {entries : List (κ × ν)} {k : κ} {v : ν} {m : OrderedMap κ ν}

theorem find_eq_none (h : ∀ e ∈ entries, e.1 ≠ k) : find k entries = none := by
  induction entries with
  | nil => rfl
  | cons entry rest ih =>
    have head : k ≠ entry.1 := (h entry (by simp)).symm
    simp [find, head, ih (fun e he => h e (by simp [he]))]

theorem keys_nodup (sorted : entries.Pairwise (fun a b => a.1 < b.1)) : (entries.map Prod.fst).Nodup :=
  pairwise_map.mpr (sorted.imp ne_of_lt)

theorem find_eq_some_iff (fresh : (entries.map Prod.fst).Nodup)
    : find k entries = some v ↔ (k, v) ∈ entries := by
  induction entries with
  | nil => simp [find]
  | cons entry rest ih =>
    obtain ⟨key, w⟩ := entry
    obtain ⟨absent, later⟩ := nodup_cons.mp fresh
    by_cases same : k = key
    · subst same
      have outside : (k, v) ∉ rest := fun member => absent (mem_map.mpr ⟨(k, v), member, rfl⟩)
      simp [find, outside, eq_comm]
    · simp [find, same, ih later]

/-- Looking up in a permuted list of distinct keys. -/
theorem find_perm {l m : List (κ × ν)} (perm : l.Perm m) (fresh : (m.map Prod.fst).Nodup) (k : κ)
    : find k l = find k m := by
  ext v
  rw [find_eq_some_iff ((perm.map Prod.fst).nodup_iff.mpr fresh), find_eq_some_iff fresh, perm.mem_iff]

theorem find_insertEntry (k key : κ) (v : ν) (entries : List (κ × ν))
    : find key (insertEntry k v entries) = if key = k then some v else find key entries := by
  induction entries with
  | nil => simp [insertEntry, find]
  | cons entry rest ih =>
    obtain ⟨first, w⟩ := entry
    simp only [insertEntry]
    split_ifs with below same other same other <;> simp_all [find]

theorem mem_insertEntry {e : κ × ν} (h : e ∈ insertEntry k v entries) : e = (k, v) ∨ e ∈ entries := by
  induction entries with
  | nil => simpa [insertEntry] using h
  | cons entry rest ih =>
    simp only [insertEntry] at h
    split_ifs at h <;> simp only [mem_cons] at h ⊢ <;> tauto

theorem insertEntry_sorted (k : κ) (v : ν) (sorted : entries.Pairwise (fun a b => a.1 < b.1))
    : (insertEntry k v entries).Pairwise (fun a b => a.1 < b.1) := by
  induction entries with
  | nil => simp [insertEntry]
  | cons entry rest ih =>
    obtain ⟨above, tail⟩ := pairwise_cons.mp sorted
    simp only [insertEntry]
    split_ifs with below same
    · refine pairwise_cons.mpr ⟨?_, sorted⟩
      intro e member
      rcases mem_cons.mp member with rfl | member
      · exact below
      · exact below.trans (above e member)
    · exact pairwise_cons.mpr ⟨fun e member => same ▸ above e member, tail⟩
    · refine pairwise_cons.mpr ⟨?_, ih tail⟩
      intro e member
      rcases mem_insertEntry member with rfl | member
      · exact lt_of_le_of_ne (not_lt.mp below) (Ne.symm same)
      · exact above e member

theorem insertEntry_above (above : ∀ e ∈ entries, e.1 < k)
    : insertEntry k v entries = entries ++ [(k, v)] := by
  induction entries with
  | nil => rfl
  | cons entry rest ih =>
    have below : entry.1 < k := above entry (by simp)
    simp [insertEntry, below.not_gt, below.ne', ih (fun e he => above e (by simp [he]))]

/-- Inserting the entries of a sorted list one by one rebuilds the list.
Witness: every entry lies above those already there, so it is appended.
-/
theorem foldl_insertEntry (built entries : List (κ × ν))
    (sorted : (built ++ entries).Pairwise (fun a b => a.1 < b.1))
    : entries.foldl (fun m e => insertEntry e.1 e.2 m) built = built ++ entries := by
  induction entries generalizing built with
  | nil => simp
  | cons entry rest ih =>
    have above : ∀ e ∈ built, e.1 < entry.1 := fun e member =>
      (pairwise_append.mp sorted).2.2 e member entry (by simp)
    rw [foldl_cons, insertEntry_above above]
    simpa using ih (built ++ [entry]) (by simpa using sorted)

theorem entries_ext {left right : List (κ × ν)}
    (hl : left.Pairwise (fun a b => a.1 < b.1)) (hr : right.Pairwise (fun a b => a.1 < b.1))
    (same : ∀ e, e ∈ left ↔ e ∈ right)
    : left = right := by
  have distinct {l : List (κ × ν)} (h : l.Pairwise (fun a b => a.1 < b.1)) : l.Nodup := by
    apply h.imp
    intro a b below equal
    exact lt_irrefl a.1 (equal ▸ below)
  have perm : left.Perm right :=
    (perm_ext_iff_of_nodup (distinct hl) (distinct hr)).mpr same
  exact perm.eq_of_pairwise (fun a b _ _ hab hba => absurd (hab.trans hba) (lt_irrefl _)) hl hr

/-- Sorting by distinct keys forgets the order before. -/
theorem insertionSort_of_perm {left right : List (κ × ν)} (perm : left.Perm right)
    (distinct : (right.map Prod.fst).Nodup)
    : left.insertionSort (fun a b => a.1 ≤ b.1) = right.insertionSort (fun a b => a.1 ≤ b.1) := by
  have total : Std.Total (fun a b : κ × ν => a.1 ≤ b.1) := ⟨fun a b => le_total a.1 b.1⟩
  have trans : IsTrans (κ × ν) (fun a b => a.1 ≤ b.1) := ⟨fun _ _ _ => le_trans⟩
  refine List.Perm.eq_of_pairwise ?_ (pairwise_insertionSort _ _) (pairwise_insertionSort _ _) ?_
  · intro a b first second low high
    rw [mem_insertionSort, perm.mem_iff] at first
    rw [mem_insertionSort] at second
    exact inj_on_of_nodup_map distinct first second (le_antisymm low high)
  · exact (perm_insertionSort _ _).trans (perm.trans (perm_insertionSort _ _).symm)

theorem insertionSort_of_sorted (sorted : entries.Pairwise (fun a b => a.1 < b.1))
    : entries.insertionSort (fun a b => a.1 ≤ b.1) = entries :=
  List.Pairwise.insertionSort_eq (sorted.imp le_of_lt)

def empty : OrderedMap κ ν := ⟨[], List.Pairwise.nil⟩

def get (m : OrderedMap κ ν) (k : κ) : Option ν := find k m.entries

def set (m : OrderedMap κ ν) (k : κ) (v : ν) : OrderedMap κ ν :=
  ⟨insertEntry k v m.entries, insertEntry_sorted k v m.sorted⟩

def delete (m : OrderedMap κ ν) (k : κ) : OrderedMap κ ν :=
  ⟨m.entries.filter (fun e => e.1 ≠ k), m.sorted.filter _⟩

/-- The entries whose key is selected, in key order. -/
def select (m : OrderedMap κ ν) (p : κ → Bool) : List (κ × ν) :=
  m.entries.filter (fun e => p e.1)

@[simp] theorem get_empty (k : κ) : (empty : OrderedMap κ ν).get k = none := rfl

theorem get_eq_some_iff : m.get k = some v ↔ (k, v) ∈ m.entries :=
  find_eq_some_iff (keys_nodup m.sorted)

theorem get_set (m : OrderedMap κ ν) (k key : κ) (v : ν)
    : (m.set k v).get key = if key = k then some v else m.get key :=
  find_insertEntry k key v m.entries

theorem get_delete (m : OrderedMap κ ν) (k key : κ)
    : (m.delete k).get key = if key = k then none else m.get key := by
  ext v
  rw [get_eq_some_iff]
  by_cases same : key = k
  · simp [delete, same]
  · simp [delete, same, get_eq_some_iff]

@[ext] theorem ext {n : OrderedMap κ ν} (h : ∀ k, m.get k = n.get k) : m = n := by
  obtain ⟨left, hl⟩ := m
  obtain ⟨right, hr⟩ := n
  have same : left = right := entries_ext hl hr (fun ⟨k, v⟩ => by
    rw [← find_eq_some_iff (keys_nodup hl), ← find_eq_some_iff (keys_nodup hr)]
    exact Eq.to_iff (congrArg (· = some v) (h k)))
  subst same
  rfl

theorem delete_of_get_none (m : OrderedMap κ ν) (absent : m.get k = none) : m.delete k = m := by
  ext1 key
  rw [get_delete]
  split
  · next here => rw [here, absent]
  · rfl

/-- Setting the entries of one map in another gives the values of the first where it has some. -/
theorem get_foldl_set (m other : OrderedMap κ ν) (k : κ)
    : (other.entries.foldl (fun acc e => acc.set e.1 e.2) m).get k = (other.get k).or (m.get k) := by
  have onto (entries : List (κ × ν)) (sorted : entries.Pairwise (fun a b => a.1 < b.1)) (m : OrderedMap κ ν)
      : (entries.foldl (fun acc e => acc.set e.1 e.2) m).get k = (find k entries).or (m.get k) := by
    induction entries generalizing m with
    | nil => rfl
    | cons entry rest ih =>
      obtain ⟨above, tail⟩ := pairwise_cons.mp sorted
      rw [foldl_cons, ih tail, get_set, find]
      split
      next here =>
        have absent : find k rest = none := find_eq_none fun e member => here ▸ (above e member).ne'
        rw [absent, Option.none_or, Option.some_or]
      next => rfl
  exact onto other.entries other.sorted m

theorem entries_foldl_set (entries : List (κ × ν)) (m : OrderedMap κ ν)
    : (entries.foldl (fun acc e => acc.set e.1 e.2) m).entries
      = entries.foldl (fun l e => insertEntry e.1 e.2 l) m.entries := by
  induction entries generalizing m with
  | nil => rfl
  | cons entry rest ih => exact ih _

theorem foldl_set (m : OrderedMap κ ν) : m.entries.foldl (fun acc e => acc.set e.1 e.2) empty = m := by
  have same := (entries_foldl_set m.entries empty).trans (foldl_insertEntry [] m.entries (by simpa using m.sorted))
  exact ext (fun k => congrArg (find k) (by simpa using same))

/-- The map with a function applied to every value. -/
def mapValues {μ : Type} (f : ν → μ) (m : OrderedMap κ ν) : OrderedMap κ μ :=
  ⟨m.entries.map (fun e => (e.1, f e.2)), List.pairwise_map.mpr m.sorted⟩

@[simp] theorem get_mapValues {μ : Type} (f : ν → μ) (m : OrderedMap κ ν) (k : κ)
    : (m.mapValues f).get k = (m.get k).map f := by
  have step (entries : List (κ × ν))
      : find k (entries.map (fun e => (e.1, f e.2))) = (find k entries).map f := by
    induction entries with
    | nil => rfl
    | cons entry rest ih =>
      simp only [map_cons, find, ih]
      split <;> rfl
  exact step m.entries

theorem select_sorted (m : OrderedMap κ ν) (p : κ → Bool) : (m.select p).Pairwise (fun a b => a.1 < b.1) :=
  m.sorted.filter _

@[simp] theorem mem_select {p : κ → Bool} : (k, v) ∈ m.select p ↔ m.get k = some v ∧ p k = true := by
  simp [select, get_eq_some_iff]

end OrderedMap

end Kv
