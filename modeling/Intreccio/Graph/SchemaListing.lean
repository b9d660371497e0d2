import Intreccio.Graph.Schema

/-! Listings of the schema. A listing of a registry has every object of it once, so the names that it shows are
different exactly when the objects have different names.
-/

namespace Intreccio.Graph

open Kv Kv.Program Words Codec Catalog List

variable {s t : Store}

/-- Objects of some registries, with the names given to them, have different names. -/
def Distinct (R : Registry → Prop) (f : Object → Option Str) : Prop :=
  ∀ o o' g g', R o.registry → R o'.registry → f o = some g → f o' = some g' → o.name g = o'.name g' → o = o'

section

variable {R : Registry → Prop} {f f' : Object → Option Str} {o : Object} {g : Str}

theorem Distinct.mono (distinct : Distinct R f) (fewer : ∀ o g, R o.registry → f' o = some g → f o = some g)
    : Distinct R f' :=
  fun o o' g g' here there found found' =>
    distinct o o' g g' here there (fewer o g here found) (fewer o' g' there found')

/-- One more object has a name of its own exactly when no object had that name. -/
theorem distinct_add_iff (distinct : Distinct R f) (absent : f o = none) (inside : R o.registry)
    (added : ∀ o', R o'.registry → f' o' = if o' = o then some g else f o')
    : Distinct R f' ↔ ∀ o' g', R o'.registry → f o' = some g' → o'.name g' ≠ o.name g := by
  have other {o' : Object} {g' : Str} (found : f o' = some g') : o' ≠ o := by
    rintro rfl
    rw [absent] at found
    cases found
  constructor
  · intro after o' g' inside' found same
    refine other found (after o' o g' g inside' inside ?_ ?_ same)
    · rw [added o' inside', if_neg (other found), found]
    · rw [added o inside, if_pos rfl]
  · intro fresh o₁ o₂ g₁ g₂ in₁ in₂ found₁ found₂ same
    rw [added o₁ in₁] at found₁
    rw [added o₂ in₂] at found₂
    split at found₁ <;> split at found₂
    next first second => exact first.trans second.symm
    next first second =>
      cases found₁
      exact absurd same.symm (first ▸ fresh o₂ g₂ in₂ found₂)
    next first second =>
      cases found₂
      exact absurd same (second ▸ fresh o₁ g₁ in₁ found₁)
    next first second => exact distinct o₁ o₂ g₁ g₂ in₁ in₂ found₁ found₂ same

/-- A list of the objects that are there, each with the name given to it. -/
structure Catalogues (R : Registry → Prop) (f : Object → Option Str) (l : List (Object × Str)) : Prop where
  once : (l.map Prod.fst).Nodup
  mem : ∀ o g, (o, g) ∈ l ↔ R o.registry ∧ f o = some g

/-- The names of a list are different exactly when the objects have different names. -/
theorem Catalogues.nodup_iff {l : List (Object × Str)} (lists : Catalogues R f l)
    : (l.map (fun e => e.1.name e.2)).Nodup ↔ Distinct R f := by
  rw [nodup_map_iff_inj_on lists.once.of_map]
  constructor
  · intro inj o o' g g' here there found found' same
    have first := (lists.mem o g).mpr ⟨here, found⟩
    have second := (lists.mem o' g').mpr ⟨there, found'⟩
    exact congrArg Prod.fst (inj (o, g) first (o', g') second same)
  · rintro distinct ⟨o, g⟩ member ⟨o', g'⟩ member' same
    obtain ⟨here, found⟩ := (lists.mem o g).mp member
    obtain ⟨there, found'⟩ := (lists.mem o' g').mp member'
    obtain rfl := distinct o o' g g' here there found found' same
    rw [Option.some.inj (found.symm.trans found')]

end

theorem under_registry {r : Registry} {κ : Key} : under [r.tag] κ.bytes = true ↔ ∃ l k, κ = r.key l k := by
  have table : Key.tableOf r.tag = (r.key 0 0).table := by cases r <;> rfl
  rw [under_iff table]
  cases r <;> cases κ with
  | forward d _ => cases d <;> simp [Registry.key, Key.table]
  | _ => simp [Registry.key, Key.table]

theorem parseRegistryKey_key (what : String) (r : Registry) (l k : UInt32)
    : parseRegistryKey what (r.key l k).bytes = .ok (l, k) := by
  have body : (r.key l k).bytes = r.tag :: (uint32Bytes l ++ uint32Bytes k) := by cases r <;> rfl
  rw [parseRegistryKey, body, if_neg (by simp)]
  simp

structure Entries (s : Store) (r : Registry) (found : List (UInt32 × UInt32 × Bytes)) : Prop where
  once : (found.map (fun e => (e.1, e.2.1))).Nodup
  mem : ∀ l k v, (l, k, v) ∈ found ↔ cell s (r.key l k) = some v

theorem exists_entries {α : Type} (keyed : WellKeyed s) (r : Registry) (what : String)
    (decode : UInt32 → UInt32 → Bytes → Except Err α) (make : UInt32 × UInt32 × Bytes → α)
    (decodes : ∀ l k v, cell s (r.key l k) = some v → decode l k v = .ok (make (l, k, v)))
    : ∃ found, Entries s r found
      ∧ parseEntries what decode (s.select (under [r.tag])) = .ok (found.map make) := by
  have listed (entries : List (Bytes × Bytes))
      (made : ∀ e ∈ entries, ∃ l k, e.1 = (r.key l k).bytes ∧ cell s (r.key l k) = some e.2)
      : ∃ found : List (UInt32 × UInt32 × Bytes), parseEntries what decode entries = .ok (found.map make)
        ∧ found.map (fun e => ((r.key e.1 e.2.1).bytes, e.2.2)) = entries := by
    induction entries with
    | nil => exact ⟨[], rfl, rfl⟩
    | cons entry rest ih =>
      obtain ⟨l, k, key, held⟩ := made entry mem_cons_self
      obtain ⟨more, parsed, same⟩ := ih fun e member => made e (mem_cons_of_mem _ member)
      refine ⟨(l, k, entry.2) :: more, ?_, ?_⟩
      · rw [parseEntries, key, parseRegistryKey_key, parsed]
        change (decode l k entry.2).bind (fun d => .ok (d :: more.map make)) = _
        rw [decodes l k entry.2 held]
        rfl
      · rw [map_cons, same, ← key]
  obtain ⟨found, parsed, same⟩ := listed (s.select (under [r.tag])) fun e member => by
    obtain ⟨κ, key, held, inside⟩ := (mem_select_under keyed).mp member
    obtain ⟨l, k, rfl⟩ := under_registry.mp inside
    exact ⟨l, k, key, held⟩
  refine ⟨found, ⟨?_, fun l k v => ?_⟩, parsed⟩
  · have keys : (found.map (fun e => (r.key e.1 e.2.1).bytes)).Nodup := by
      have sorted : ((s.select (under [r.tag])).map Prod.fst).Pairwise (· < ·) :=
        pairwise_map.mpr (s.select_sorted _)
      rw [← same, map_map] at sorted
      exact sorted.imp fun below => ne_of_lt below
    have split : (fun e : UInt32 × UInt32 × Bytes => (r.key e.1 e.2.1).bytes)
        = (fun ids : UInt32 × UInt32 => (r.key ids.1 ids.2).bytes) ∘ fun e => (e.1, e.2.1) := rfl
    rw [split, ← map_map] at keys
    exact keys.of_map
  · have entry : (l, k, v) ∈ found ↔ ((r.key l k).bytes, v) ∈ s.select (under [r.tag]) := by
      rw [← same, mem_map]
      constructor
      · intro member
        exact ⟨(l, k, v), member, rfl⟩
      · rintro ⟨⟨l', k', v'⟩, member, equal⟩
        obtain ⟨key, rfl⟩ := Prod.mk.inj equal
        obtain ⟨_, rfl, rfl⟩ := Registry.key_inj.mp (Key.bytes_inj.mp key)
        exact member
    rw [entry, OrderedMap.mem_select]
    exact and_iff_left (under_registry.mpr ⟨l, k, rfl⟩)

def objectOf (s : Store) (r : Registry) (e : UInt32 × UInt32 × Bytes) : Object :=
  ⟨r, (cell s (.reverse r.dict e.1)).getD [], (cell s (.reverse .key e.2.1)).getD []⟩

section

variable {r : Registry} {found : List (UInt32 × UInt32 × Bytes)}

theorem Entries.entry (entries : Entries s r found) (schema : Schema s) {e : UInt32 × UInt32 × Bytes}
    (member : e ∈ found)
    : Entry s (objectOf s r e) e.1 e.2.1 e.2.2 := by
  have held := (entries.mem e.1 e.2.1 e.2.2).mp member
  obtain ⟨⟨a, owner⟩, p, prop⟩ := schema.named r e.1 e.2.1 (by simp [held])
  refine ⟨⟨?_, ?_⟩, held⟩
  · simp [objectOf, owner]
  · simp [objectOf, prop]

theorem Entries.catalogues (entries : Entries s r found) (schema : Schema s)
    : Catalogues (· = r) (givenName s) (found.map (fun e => (objectOf s r e, r.given e.2.2))) := by
  refine ⟨?_, fun o g => ?_⟩
  · rw [map_map]
    refine List.Nodup.map_on (fun e member e' member' same => ?_) entries.once.of_map
    have entry := entries.entry schema member
    have entry' := entries.entry schema member'
    have equal : objectOf s r e = objectOf s r e' := same
    rw [equal] at entry
    obtain ⟨owner, prop⟩ := schema.ids_eq entry.toIds entry'.toIds
    have value := Option.some.inj (entry.held.symm.trans (owner ▸ prop ▸ entry'.held))
    exact Prod.ext owner (Prod.ext prop value)
  · rw [mem_map, schema.givenName_iff]
    constructor
    · rintro ⟨e, member, same⟩
      obtain ⟨rfl, rfl⟩ := Prod.mk.inj same
      exact ⟨rfl, e.1, e.2.1, e.2.2, entries.entry schema member, rfl⟩
    · rintro ⟨rfl, l, k, v, entry, rfl⟩
      have member := (entries.mem l k v).mpr entry.held
      refine ⟨(l, k, v), member, Prod.ext ?_ rfl⟩
      exact (entries.entry schema member).object_eq entry.toIds rfl

theorem Catalogues.append {R R' : Registry → Prop} {f : Object → Option Str} {l l' : List (Object × Str)}
    (lists : Catalogues R f l) (lists' : Catalogues R' f l') (apart : ∀ r, R r → ¬ R' r)
    : Catalogues (fun r => R r ∨ R' r) f (l ++ l') := by
  refine ⟨?_, fun o g => ?_⟩
  · rw [map_append]
    refine List.Nodup.append lists.once lists'.once ?_
    rintro o first second
    obtain ⟨⟨_, g⟩, member, rfl⟩ := mem_map.mp first
    obtain ⟨⟨_, g'⟩, member', same⟩ := mem_map.mp second
    obtain rfl : _ = _ := same
    exact apart _ ((lists.mem _ _).mp member).1 ((lists'.mem _ _).mp member').1
  · rw [mem_append, lists.mem, lists'.mem, or_and_right]

end

end Intreccio.Graph
