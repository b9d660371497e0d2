import Intreccio.Foundation.OrderedMap

/-! Absolute effects on an ordered map: each write sets a key or deletes it, whatever was there.
What a list of writes leaves depends, key by key, on the last write of that key, so a list may
be applied again over any map that differs only in the keys it writes.
-/

namespace Kv

open List

/-- A write of a key: its new value, or `none` for a deletion. -/
abbrev Write (κ ν : Type) := κ × Option ν

def written {κ ν : Type} (writes : List (Write κ ν)) : List κ := writes.map Prod.fst

namespace OrderedMap

variable {κ ν : Type} [LinearOrder κ] {m n : OrderedMap κ ν} {writes more : List (Write κ ν)}

def put (m : OrderedMap κ ν) (w : Write κ ν) : OrderedMap κ ν :=
  match w.2 with
  | some v => m.set w.1 v
  | none => m.delete w.1

def overwrite (m : OrderedMap κ ν) (writes : List (Write κ ν)) : OrderedMap κ ν :=
  writes.foldl put m

theorem get_put (m : OrderedMap κ ν) (w : Write κ ν) (k : κ)
    : (m.put w).get k = if k = w.1 then w.2 else m.get k := by
  obtain ⟨key, _ | v⟩ := w
  · exact get_delete m key k
  · exact get_set m key k v

@[simp] theorem overwrite_nil (m : OrderedMap κ ν) : m.overwrite [] = m := rfl

@[simp] theorem overwrite_cons (m : OrderedMap κ ν) (w : Write κ ν) (rest : List (Write κ ν))
    : m.overwrite (w :: rest) = (m.put w).overwrite rest := rfl

@[simp] theorem overwrite_append (m : OrderedMap κ ν) (writes more : List (Write κ ν))
    : m.overwrite (writes ++ more) = (m.overwrite writes).overwrite more :=
  foldl_append

theorem get_overwrite_of_notMem {k : κ} (absent : k ∉ written writes)
    : (m.overwrite writes).get k = m.get k := by
  induction writes generalizing m with
  | nil => rfl
  | cons w rest ih =>
    simp only [written, map_cons, mem_cons, not_or] at absent
    rw [overwrite_cons, ih absent.2, get_put, if_neg absent.1]

/-- Writes hide what was there before.
Witness: induction on the writes; the first one makes the maps agree on its own key.
-/
theorem get_overwrite_congr {k : κ} (agree : k ∉ written writes → m.get k = n.get k)
    : (m.overwrite writes).get k = (n.overwrite writes).get k := by
  induction writes generalizing m n with
  | nil => exact agree (by simp [written])
  | cons w rest ih =>
    refine ih (fun absent => ?_)
    rw [get_put, get_put]
    split
    · rfl
    · rename_i other
      exact agree (by simpa [written, other] using absent)

/-- Maps that agree on every key the writes leave alone become equal. -/
theorem overwrite_congr (agree : ∀ k, k ∉ written writes → m.get k = n.get k)
    : m.overwrite writes = n.overwrite writes :=
  ext fun k => get_overwrite_congr (agree k)

/-- What writes of distinct keys leave, key by key. -/
theorem get_overwrite_entries (m : OrderedMap κ ν) (p : OrderedMap κ (Option ν)) (k : κ)
    : (m.overwrite p.entries).get k = (p.get k).elim (m.get k) id := by
  have step (writes : List (Write κ ν)) (sorted : writes.Pairwise (fun a b => a.1 < b.1))
      (m : OrderedMap κ ν) : (m.overwrite writes).get k = (find k writes).elim (m.get k) id := by
    induction writes generalizing m with
    | nil => rfl
    | cons w rest ih =>
      obtain ⟨above, others⟩ := pairwise_cons.mp sorted
      by_cases same : k = w.1
      · have absent : k ∉ written rest := by
          intro member
          obtain ⟨w', later, key⟩ := mem_map.mp member
          exact (above w' later).ne (same.symm.trans key.symm)
        rw [overwrite_cons, get_overwrite_of_notMem absent, get_put, if_pos same]
        simp [find, same]
      · rw [overwrite_cons, ih others, get_put, if_neg same]
        simp [find, same]
  exact step p.entries p.sorted m

/-- One more buffered write is one more write on the map. -/
theorem overwrite_set (m : OrderedMap κ ν) (p : OrderedMap κ (Option ν)) (k : κ) (v : Option ν)
    : m.overwrite (p.set k v).entries = (m.overwrite p.entries).put (k, v) := by
  ext1 key
  rw [get_overwrite_entries, get_put, get_overwrite_entries, get_set]
  split <;> rfl

end OrderedMap

end Kv
