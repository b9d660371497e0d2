import Intreccio.Catalog.Listing
import Intreccio.Graph.IndexOperations

/-! The objects of the schema by their names: node indexes, relationship indexes and constraints.
The registries are keyed by IDs, and the dictionaries turn the IDs into names, so every registered pair is
one object. Interning a name adds no object, and each registry operation changes the one it names.
-/

namespace Intreccio.Graph

open Kv Kv.Program Words Codec Catalog

variable {s t : Store}

inductive Registry where
  | index
  | relIndex
  | constraint
deriving DecidableEq

namespace Registry

def dict : Registry → Dict
  | relIndex => .type
  | _ => .label

def key : Registry → UInt32 → UInt32 → Key
  | index => .index
  | relIndex => .relIndex
  | constraint => .constraint

def tag : Registry → UInt8
  | index => tagIndexReg
  | relIndex => tagRelIndex
  | constraint => tagConstraint

/-- How a name starts that was not given. -/
def stem : Registry → String
  | index => "index_"
  | relIndex => "rel_index_"
  | constraint => "constraint_"

/-- The given name in an entry; that of a constraint follows its flags. -/
def given : Registry → Bytes → Str
  | constraint, v => v.drop 1
  | _, v => v

end Registry

/-- An index on a label or a type and a property, or a constraint. -/
structure Object where
  registry : Registry
  owner : Str
  prop : Str
deriving DecidableEq

def Object.name (o : Object) (given : Str) : Str := knownName o.registry.stem o.owner o.prop given

/-- The name that was given to an object, empty for none, if the object is there. -/
def givenName (s : Store) (o : Object) : Option Str :=
  (idOf s o.registry.dict o.owner).bind (fun l => (idOf s .key o.prop).bind (fun k =>
    (cell s (o.registry.key l k)).map o.registry.given))

/-- The keys of the registries. -/
def RegistryKey : Key → Prop
  | .index _ _ | .relIndex _ _ | .constraint _ _ => True
  | _ => False

/-- The registered pairs have names, and an entry of a constraint has its flags. -/
structure Schema (s : Store) : Prop where
  keyed : WellKeyed s
  ordered : ∀ d, Dictionary s d
  named : ∀ (r : Registry) l k, cell s (r.key l k) ≠ none
    → (∃ a, cell s (.reverse r.dict l) = some a) ∧ ∃ p, cell s (.reverse .key k) = some p
  flagged : ∀ l k, cell s (.constraint l k) ≠ some []

theorem Schema.empty : Schema .empty :=
  ⟨.empty, Dictionary.empty, fun r l k found => absurd (cell_empty _) found, fun l k => by simp⟩

structure Ids (s : Store) (o : Object) (l k : UInt32) : Prop where
  owner : cell s (.reverse o.registry.dict l) = some o.owner
  prop : cell s (.reverse .key k) = some o.prop

structure Entry (s : Store) (o : Object) (l k : UInt32) (v : Bytes) : Prop extends Ids s o l k where
  held : cell s (o.registry.key l k) = some v

section

variable {o o' : Object} {l k l' k' : UInt32} {v v' : Bytes} {g : Str}

theorem Ids.object_eq (ids : Ids s o l k) (ids' : Ids s o' l k) (same : o.registry = o'.registry) : o = o' := by
  obtain ⟨r, a, p⟩ := o
  obtain ⟨r', a', p'⟩ := o'
  obtain rfl : r = r' := same
  have owner : a = a' := Option.some.inj (ids.owner.symm.trans ids'.owner)
  have prop : p = p' := Option.some.inj (ids.prop.symm.trans ids'.prop)
  rw [owner, prop]

theorem Schema.ids_eq (schema : Schema s) (ids : Ids s o l k) (ids' : Ids s o l' k') : l = l' ∧ k = k' := by
  have owner := (schema.ordered _).idOf_iff.mpr ids.owner
  have owner' := (schema.ordered _).idOf_iff.mpr ids'.owner
  have prop := (schema.ordered _).idOf_iff.mpr ids.prop
  have prop' := (schema.ordered _).idOf_iff.mpr ids'.prop
  exact ⟨Option.some.inj (owner.symm.trans owner'), Option.some.inj (prop.symm.trans prop')⟩

theorem Schema.givenName_eq (schema : Schema s) (ids : Ids s o l k)
    : givenName s o = (cell s (o.registry.key l k)).map o.registry.given := by
  have owner := (schema.ordered _).idOf_iff.mpr ids.owner
  have prop := (schema.ordered _).idOf_iff.mpr ids.prop
  rw [givenName, owner, prop]
  rfl

theorem Schema.givenName_iff (schema : Schema s)
    : givenName s o = some g ↔ ∃ l k v, Entry s o l k v ∧ o.registry.given v = g := by
  constructor
  · intro found
    obtain ⟨l, owner, found⟩ := Option.bind_eq_some_iff.mp found
    obtain ⟨k, prop, found⟩ := Option.bind_eq_some_iff.mp found
    obtain ⟨v, held, given⟩ := Option.map_eq_some_iff.mp found
    have ids : Ids s o l k := ⟨(schema.ordered _).idOf_iff.mp owner, (schema.ordered _).idOf_iff.mp prop⟩
    exact ⟨l, k, v, ⟨ids, held⟩, given⟩
  · rintro ⟨l, k, v, entry, rfl⟩
    rw [schema.givenName_eq entry.toIds, entry.held]
    rfl

theorem Schema.exists_entry (schema : Schema s) {r : Registry} (held : cell s (r.key l k) = some v)
    : ∃ o : Object, o.registry = r ∧ Entry s o l k v := by
  obtain ⟨⟨a, owner⟩, p, prop⟩ := schema.named r l k (by simp [held])
  exact ⟨⟨r, a, p⟩, rfl, ⟨owner, prop⟩, held⟩

end

section

variable {r : Registry} {l k : UInt32} {a p : Str}

theorem RegistryKey.key (r : Registry) (l k : UInt32) : RegistryKey (r.key l k) := by cases r <;> trivial

theorem Registry.key_inj {r r' : Registry} {l l' k k' : UInt32}
    : r.key l k = r'.key l' k' ↔ r = r' ∧ l = l' ∧ k = k' := by
  cases r <;> cases r' <;> simp [Registry.key]

/-- Interning names adds no object. -/
theorem Schema.interned (schema : Schema s) (interned : Interned s t)
    : Schema t ∧ ∀ o, givenName t o = givenName s o := by
  have registries (r : Registry) (l k : UInt32) : cell t (r.key l k) = cell s (r.key l k) :=
    interned.framed.frame _ (by cases r <;> exact id)
  have ordered := interned.ordered schema.ordered
  have reverse {d : Dict} {id : UInt32} {name : Str} (known : cell s (.reverse d id) = some name)
      : cell t (.reverse d id) = some name :=
    (ordered d).idOf_iff.mp (interned.keeps d name id ((schema.ordered d).idOf_iff.mpr known))
  have schema' : Schema t := by
    refine ⟨interned.framed.keyed schema.keyed, ordered, fun r l k found => ?_, fun l k => ?_⟩
    · rw [registries] at found
      obtain ⟨⟨a, owner⟩, p, prop⟩ := schema.named r l k found
      exact ⟨⟨a, reverse owner⟩, p, reverse prop⟩
    · rw [interned.framed.frame (.constraint l k) id]
      exact schema.flagged l k
  refine ⟨schema', fun o => Option.ext fun g => ?_⟩
  rw [schema'.givenName_iff, schema.givenName_iff]
  constructor
  · rintro ⟨l, k, v, entry, given⟩
    -- the pair was registered before, so its IDs had names, and they keep them
    have held := (registries _ l k).symm.trans entry.held
    obtain ⟨o', same, entry'⟩ := schema.exists_entry held
    have now : Ids t o' l k := ⟨reverse entry'.owner, reverse entry'.prop⟩
    rw [entry.object_eq now same.symm] at given ⊢
    exact ⟨l, k, v, entry', given⟩
  · rintro ⟨l, k, v, entry, given⟩
    have ids : Ids t o l k := ⟨reverse entry.owner, reverse entry.prop⟩
    exact ⟨l, k, v, ⟨ids, (registries _ l k).trans entry.held⟩, given⟩

/-- The entry of one pair is replaced or removed, and the other registered pairs and the dictionaries are as
they were.
-/
structure Registers (r : Registry) (l k : UInt32) (v : Option Bytes) (s t : Store) : Prop where
  keyed : WellKeyed t
  here : cell t (r.key l k) = v
  registries : ∀ κ, RegistryKey κ → κ ≠ r.key l k → cell t κ = cell s κ
  dictionaries : ∀ κ, DictKey κ → cell t κ = cell s κ

theorem Registers.ids {r : Registry} {v : Option Bytes} (registers : Registers r l k v s t) {o : Object}
    {l' k' : UInt32}
    : Ids t o l' k' ↔ Ids s o l' k' := by
  have reverse (d : Dict) (id : UInt32) : cell t (.reverse d id) = cell s (.reverse d id) :=
    registers.dictionaries _ trivial
  constructor
  · rintro ⟨owner, prop⟩
    exact ⟨(reverse _ _).symm.trans owner, (reverse _ _).symm.trans prop⟩
  · rintro ⟨owner, prop⟩
    exact ⟨(reverse _ _).trans owner, (reverse _ _).trans prop⟩

/-- Changing the entry of a pair changes the object of the pair. -/
theorem Schema.registers {v : Option Bytes} {o : Object} (schema : Schema s) (ids : Ids s o l k)
    (registers : Registers o.registry l k v s t) (flagged : o.registry = .constraint → v ≠ some [])
    : Schema t ∧ ∀ o', givenName t o' = if o' = o then v.map o.registry.given else givenName s o' := by
  have schema' : Schema t := by
    refine ⟨registers.keyed, fun d => (schema.ordered d).congr registers.dictionaries, fun r l' k' found => ?_,
      fun l' k' held => ?_⟩
    · have ids' : ∃ a p, Ids s ⟨r, a, p⟩ l' k' := by
        by_cases same : r.key l' k' = o.registry.key l k
        · obtain ⟨rfl, rfl, rfl⟩ := Registry.key_inj.mp same
          exact ⟨o.owner, o.prop, ids⟩
        · rw [registers.registries _ (.key r l' k') same] at found
          obtain ⟨⟨a, owner⟩, p, prop⟩ := schema.named r l' k' found
          exact ⟨a, p, owner, prop⟩
      obtain ⟨a, p, ids'⟩ := ids'
      have now := registers.ids.mpr ids'
      exact ⟨⟨a, now.owner⟩, p, now.prop⟩
    · by_cases same : Registry.constraint.key l' k' = o.registry.key l k
      · exact flagged (Registry.key_inj.mp same).1.symm (registers.here.symm.trans (same ▸ held))
      · exact schema.flagged l' k' ((registers.registries _ (.key .constraint l' k') same).symm.trans held)
  refine ⟨schema', fun o' => ?_⟩
  split
  next same =>
    subst same
    rw [schema'.givenName_eq (registers.ids.mpr ids), registers.here]
  next other =>
    have apart {l' k' : UInt32} (ids' : Ids s o' l' k')
        : cell t (o'.registry.key l' k') = cell s (o'.registry.key l' k') := by
      refine registers.registries _ (.key _ _ _) fun same => other ?_
      obtain ⟨registry, rfl, rfl⟩ := Registry.key_inj.mp same
      exact ids'.object_eq ids registry
    refine Option.ext fun g => ?_
    rw [schema'.givenName_iff, schema.givenName_iff]
    constructor
    · rintro ⟨l', k', v', entry, given⟩
      have ids' := registers.ids.mp entry.toIds
      exact ⟨l', k', v', ⟨ids', (apart ids').symm.trans entry.held⟩, given⟩
    · rintro ⟨l', k', v', entry, given⟩
      exact ⟨l', k', v', ⟨registers.ids.mpr entry.toIds, (apart entry.toIds).trans entry.held⟩, given⟩

end

/-- The keys that say nothing about the schema. -/
def Aside (κ : Key) : Prop := ¬ RegistryKey κ ∧ ¬ DictKey κ

section

variable {rule : ScanRule Bytes Bytes} {r : Registry} {l k : UInt32}

theorem Registers.keep {v : Option Bytes} {mid : Store} (registers : Registers r l k v s mid)
    (framed : Framed Aside mid t)
    : Registers r l k v s t where
  keyed := framed.keyed registers.keyed
  here := (framed.frame _ fun aside => aside.1 (.key r l k)).trans registers.here
  registries := fun κ inside other =>
    (framed.frame κ fun aside => aside.1 inside).trans (registers.registries κ inside other)
  dictionaries := fun κ inside =>
    (framed.frame κ fun aside => aside.2 inside).trans (registers.dictionaries κ inside)

theorem Registers.after {v : Option Bytes} {mid : Store} (framed : Framed Aside s mid)
    (registers : Registers r l k v mid t)
    : Registers r l k v s t where
  keyed := registers.keyed
  here := registers.here
  registries := fun κ inside other =>
    (registers.registries κ inside other).trans (framed.frame κ fun aside => aside.1 inside)
  dictionaries := fun κ inside =>
    (registers.dictionaries κ inside).trans (framed.frame κ fun aside => aside.2 inside)

theorem DictKey.ne_key {κ : Key} (inside : DictKey κ) : κ ≠ r.key l k := by
  rintro rfl
  cases r <;> exact inside

theorem registers_set (keyed : WellKeyed s) (v : Bytes)
    : Registers r l k (some v) s (s.set (r.key l k).bytes v) where
  keyed := keyed.set _ _
  here := by rw [cell_set, if_pos rfl]
  registries := fun κ _ other => by rw [cell_set, if_neg other]
  dictionaries := fun κ inside => by rw [cell_set, if_neg inside.ne_key]

theorem registers_delete (keyed : WellKeyed s) : Registers r l k none s (s.delete (r.key l k).bytes) where
  keyed := keyed.delete _
  here := by rw [cell_delete, if_pos rfl]
  registries := fun κ _ other => by rw [cell_delete, if_neg other]
  dictionaries := fun κ inside => by rw [cell_delete, if_neg inside.ne_key]

variable {u : Unit}

theorem registers_buildIndex {name : Str} (keyed : WellKeyed s)
    (ran : (buildIndex l k name).Exec rule s (.ok u) t)
    : Registers .index l k (some name) s t := by
  simp only [buildIndex, addNamedIndex, bind_eq, exec_write_bind, Key.indexKey_eq] at ran
  have filled : Within Aside (forEachLabelValue l k (fun n c =>
      (Program.ofExcept (Codec.propKey l k c.toVal n)).bind (fun pk => Program.write pk []))) := by
    refine within_forEachLabelValue fun n c => ?_
    rw [Key.propKey_eq, ofExcept_ok_bind]
    exact within_write.mpr ⟨id, id⟩
  exact (registers_set keyed name).keep (filled.framed ran)

theorem registers_dropIndexEntries (keyed : WellKeyed s)
    (ran : (dropIndexEntries l k).Exec rule s (.ok u) t)
    : Registers .index l k none s t := by
  simp only [dropIndexEntries, removeIndex, bind_eq, Key.indexKey_eq] at ran
  obtain ⟨_, mid, deleted, erased⟩ := exec_bind_ok.mp ran
  obtain rfl := exec_erase.mp erased
  have gone : Within Aside (deletePrefix (propIndexPrefix l k)) := by
    refine within_deletePrefix fun κ inside => ?_
    obtain ⟨c, n, rfl⟩ := under_propIndexPrefix.mp inside
    exact ⟨id, id⟩
  have framed := gone.framed deleted
  exact .after framed (registers_delete (framed.keyed keyed))

theorem within_aside_requireFormat (v : UInt32) : Within Aside (requireFormat v) :=
  (within_requireFormat v).mono fun _ same => same ▸ ⟨id, id⟩

theorem registers_buildRelIndex {name : Str} (keyed : WellKeyed s)
    (ran : (buildRelIndex l k name).Exec rule s (.ok u) t)
    : Registers .relIndex l k (some name) s t := by
  simp only [buildRelIndex, requireRelIndexFormat, addRelIndex, bind_eq, pure_eq, Key.relIndexKey_eq] at ran
  obtain ⟨_, mid, raised, ran⟩ := exec_bind_ok.mp ran
  rw [exec_write_bind] at ran
  have framed := (within_aside_requireFormat _).framed raised
  refine .after framed ((registers_set (framed.keyed keyed) name).keep (Within.framed ?_ ran))
  refine .bind (.ofReads (reads_scan _)) fun found => Within.bind (within_ofExcept _) fun edges => ?_
  refine .each fun e _ => ?_
  split
  · simp only [Key.relPropKey_eq, ofExcept_ok_bind]
    exact within_write.mpr ⟨id, id⟩
  · exact within_ret _

theorem registers_dropRelIndexEntries (keyed : WellKeyed s)
    (ran : (dropRelIndexEntries l k).Exec rule s (.ok u) t)
    : Registers .relIndex l k none s t := by
  simp only [dropRelIndexEntries, removeRelIndex, bind_eq, Key.relIndexKey_eq] at ran
  obtain ⟨_, mid, deleted, erased⟩ := exec_bind_ok.mp ran
  obtain rfl := exec_erase.mp erased
  have gone : Within Aside (deletePrefix (relPropIndexPrefix l k)) := by
    refine within_deletePrefix fun κ inside => ?_
    obtain ⟨c, e, rfl⟩ := under_relPropIndexPrefix.mp inside
    exact ⟨id, id⟩
  have framed := gone.framed deleted
  exact .after framed (registers_delete (framed.keyed keyed))

/-- A constraint registers an index without a name when its pair has none. -/
theorem registers_addUniqueConstraint {name : Str} (keyed : WellKeyed s)
    (ran : (addUniqueConstraint l k name).Exec rule s (.ok u) t)
    : (cell s (.index l k) ≠ none ∧ Registers .constraint l k (some (0 :: name)) s t)
      ∨ (cell s (.index l k) = none ∧ ∃ mid, Registers .index l k (some []) s mid
        ∧ Registers .constraint l k (some (1 :: name)) mid t) := by
  have constrain {before : Store} {d : ConstraintDef} (keyed : WellKeyed before)
      (pair : d.label = l ∧ d.propKey = k)
      (ran : (requireUniqueFormat.bind fun _ => (addConstraint d).bind fun _ =>
        forEachLabelValue l k (fun n c => claimValue l k c n)).Exec rule before (.ok u) t)
      : Registers .constraint l k (some ((if d.ownsIndex then 1 else 0) :: d.name)) before t := by
    obtain ⟨rfl, rfl⟩ := pair
    obtain ⟨_, mid, raised, ran⟩ := exec_bind_ok.mp ran
    simp only [addConstraint, Key.constraintKey_eq] at ran
    rw [exec_write_bind] at ran
    have framed := (within_aside_requireFormat _).framed raised
    refine .after framed ((registers_set (framed.keyed keyed) _).keep (Within.framed ?_ ran))
    refine within_forEachLabelValue fun n c => (within_claimValue _ _ c n).mono fun κ entry => ?_
    cases κ <;> simp_all [EntryKey, Aside, RegistryKey, DictKey]
  simp only [addUniqueConstraint, bind_eq] at ran
  obtain ⟨had, mid, asked, ran⟩ := exec_bind_ok.mp ran
  obtain ⟨known, same⟩ := exec_hasIndex.mp asked
  subst mid
  cases had with
  | true =>
    refine .inl ⟨?_, constrain (d := ⟨l, k, name, false⟩) keyed ⟨rfl, rfl⟩ ran⟩
    rw [← Option.isSome_iff_ne_none, ← known]
  | false =>
    obtain ⟨_, mid, built, ran⟩ := exec_bind_ok.mp ran
    have indexed := registers_buildIndex keyed built
    refine .inr ⟨?_, mid, indexed, constrain (d := ⟨l, k, name, true⟩) indexed.keyed ⟨rfl, rfl⟩ ran⟩
    simpa using known.symm

/-- Dropping a constraint may drop the index of its pair. -/
theorem registers_dropUniqueConstraint (keyed : WellKeyed s)
    (ran : (dropUniqueConstraint l k).Exec rule s (.ok u) t)
    : (cell s (.constraint l k) = none ∧ t = s)
      ∨ ∃ mid, Registers .constraint l k none s mid ∧ (t = mid ∨ Registers .index l k none mid t) := by
  simp only [dropUniqueConstraint, removeConstraint, bind_eq, pure_eq, Key.constraintKey_eq] at ran
  obtain ⟨d, mid, asked, ran⟩ := exec_bind_ok.mp ran
  obtain ⟨known, same⟩ := exec_getConstraint asked
  subst mid
  cases d with
  | none =>
    obtain ⟨_, same⟩ := exec_ret.mp ran
    exact .inl ⟨by simpa using known.symm, same⟩
  | some d =>
    obtain ⟨_, mid, deleted, ran⟩ := exec_bind_ok.mp ran
    rw [exec_erase_bind] at ran
    have gone : Within Aside (deletePrefix (uniquePrefix l k)) := by
      refine within_deletePrefix fun κ inside => ?_
      obtain ⟨e, rfl⟩ := under_uniquePrefix.mp inside
      exact ⟨id, id⟩
    have framed := gone.framed deleted
    have removed : Registers .constraint l k none s (mid.delete (Key.constraint l k).bytes) :=
      .after framed (registers_delete (framed.keyed keyed))
    refine .inr ⟨_, removed, ?_⟩
    split at ran
    · exact .inr (registers_dropIndexEntries removed.keyed ran)
    · exact .inl (exec_ret.mp ran).2

end

end Intreccio.Graph
