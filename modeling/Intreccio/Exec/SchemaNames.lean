import Intreccio.Exec.Projection
import Intreccio.Graph.SchemaListing

/-! The names of indexes and constraints (`createIndexOp`, `dropIndexOp` and `internal/exec/constraint.go`).
A name that is given is compared with the names that are shown. A name that is made of the label and the
property is not, neither when CREATE leaves the name out nor when a constraint creates its index.
-/

namespace Intreccio.Exec

open Kv Words Graph Ast Catalog List
open Kv.Program

variable {s t : Store}

def IndexLike (r : Registry) : Prop := r = .index ∨ r = .relIndex

def Known (R : Registry → Prop) (s : Store) (name : Str) : Prop :=
  ∃ o g, R o.registry ∧ givenName s o = some g ∧ o.name g = name

def shownNames (rows : List Row) : List Val := rows.map (cell · (lit "name"))

def infoOf (s : Store) (r : Registry) (e : UInt32 × UInt32 × Bytes) : IndexInfo :=
  ⟨(objectOf s r e).name (r.given e.2.2), (objectOf s r e).owner, (objectOf s r e).prop, r = .relIndex, e.1,
    e.2.1⟩

def constraintOf (e : UInt32 × UInt32 × Bytes) : ConstraintDef :=
  ⟨e.1, e.2.1, e.2.2.drop 1, e.2.2.headD 0 &&& 1 ≠ 0⟩

variable {name : Str} {o : Object} {α : Type}

section

variable {r : Registry} {found : List (UInt32 × UInt32 × Bytes)}

theorem read_revName {d : Dict} {id : UInt32} (held : Intreccio.cell s (.reverse d id) = some name)
    : (revName d.kind id).read s = .ok name := by
  rw [revName, bind_eq, read_bind_of_ok (reads_lookup _) (read_lookup _), Key.reverseKey_eq]
  have found : s.get (Key.reverse d id).bytes = some name := held
  rw [found]
  rfl

theorem read_nameOf {l k : UInt32} (ids : Ids s o l k) (given : Str)
    : (nameOf o.registry.stem (revName o.registry.dict.kind) l k given).read s
      = .ok (o.owner, o.prop, o.name given) := by
  rw [nameOf, bind_eq, read_bind_of_ok (reads_revName _ _) (read_revName ids.owner)]
  exact read_bind_of_ok (reads_keyName _) (read_revName ids.prop)

theorem read_describe {nameOf : IndexDef → Txn (Str × Str × Str)} {make : UInt32 × UInt32 × Bytes → IndexDef}
    (reads : ∀ d, (nameOf d).Reads) (ids : ∀ e, (make e).owner = e.1 ∧ (make e).propKey = e.2.1)
    (named : ∀ e ∈ found, (nameOf (make e)).read s
      = .ok ((objectOf s r e).owner, (objectOf s r e).prop, (objectOf s r e).name (r.given e.2.2)))
    : (describe (decide (r = .relIndex)) nameOf (found.map make)).read s = .ok (found.map (infoOf s r)) := by
  induction found with
  | nil => rfl
  | cons e rest ih =>
    have later := ih fun e member => named e (mem_cons_of_mem _ member)
    rw [map_cons, describe, bind_eq, read_bind_of_ok (reads _) (named e mem_cons_self)]
    refine (read_bind_of_ok (reads_describe reads _) later).trans ?_
    rw [(ids e).1, (ids e).2]
    rfl

theorem reads_registry (tag : UInt8) (what : String)
    (decode : UInt32 → UInt32 → Bytes → Except Err α)
    : ((scan [tag]).bind fun found => Program.ofExcept (parseEntries what decode found) : Txn (List α)).Reads :=
  .bind (reads_scan _) (fun _ => reads_ofExcept _)

theorem read_registry (tag : UInt8) (what : String)
    (decode : UInt32 → UInt32 → Bytes → Except Err α)
    : ((scan [tag]).bind fun found => Program.ofExcept (parseEntries what decode found) : Txn (List α)).read s
      = parseEntries what decode (s.select (under [tag])) := by
  rw [read_bind_of_ok (reads_scan _) (read_entries _), read_ofExcept]

def indexOf (e : UInt32 × UInt32 × Bytes) : IndexDef := ⟨e.1, e.2.1, e.2.2⟩

theorem read_listAllIndexes (schema : Schema s)
    : ∃ nodes rels, Entries s .index nodes ∧ Entries s .relIndex rels
      ∧ listAllIndexes.read s = .ok (nodes.map (infoOf s .index) ++ rels.map (infoOf s .relIndex)) := by
  obtain ⟨nodes, nodeEntries, nodesListed⟩ := exists_entries schema.keyed .index "index registry key"
    (fun l k v => .ok ⟨l, k, v⟩) indexOf (fun l k v _ => rfl)
  obtain ⟨rels, relEntries, relsListed⟩ := exists_entries schema.keyed .relIndex "relationship index key"
    (fun l k v => .ok ⟨l, k, v⟩) indexOf (fun l k v _ => rfl)
  refine ⟨nodes, rels, nodeEntries, relEntries, ?_⟩
  have nodesRead : listIndexes.read s = .ok (nodes.map indexOf) := (read_registry _ _ _).trans nodesListed
  have relsRead : listRelIndexes.read s = .ok (rels.map indexOf) := (read_registry _ _ _).trans relsListed
  have reads (stem : String) (d : Dict) (e : IndexDef)
      : (nameOf stem (revName d.kind) e.owner e.propKey e.name).Reads :=
    reads_nameOf (fun _ => reads_revName _ _) _ _ _
  have nodesNamed : (describe false indexName (nodes.map indexOf)).read s = .ok (nodes.map (infoOf s .index)) :=
    read_describe (r := .index) (reads "index_" .label) (fun e => ⟨rfl, rfl⟩)
      fun e member => read_nameOf (nodeEntries.entry schema member).toIds _
  have relsNamed
      : (describe true relIndexName (rels.map indexOf)).read s = .ok (rels.map (infoOf s .relIndex)) :=
    read_describe (r := .relIndex) (reads "rel_index_" .type) (fun e => ⟨rfl, rfl⟩)
      fun e member => read_nameOf (relEntries.entry schema member).toIds _
  refine (read_bind_of_ok (reads_registry _ _ _) nodesRead).trans ?_
  refine (read_bind_of_ok (reads_describe (reads "index_" .label) _) nodesNamed).trans ?_
  refine (read_bind_of_ok (reads_registry _ _ _) relsRead).trans ?_
  exact read_bind_of_ok (reads_describe (reads "rel_index_" .type) _) relsNamed

theorem decodeConstraint_entry (schema : Schema s) {l k : UInt32} {v : Bytes}
    (held : Intreccio.cell s (.constraint l k) = some v)
    : decodeConstraint l k v = .ok (constraintOf (l, k, v)) := by
  cases v with
  | nil => exact absurd held (schema.flagged l k)
  | cons flags name => rfl

/-- `findConstraint` goes through the constraints by their names. -/
theorem read_listConstraints (schema : Schema s)
    : ∃ found, Entries s .constraint found ∧ listConstraints.read s = .ok (found.map constraintOf)
      ∧ ∀ e ∈ found, (constraintName (constraintOf e)).read s = .ok ((objectOf s .constraint e).owner,
        (objectOf s .constraint e).prop,
        (objectOf s .constraint e).name (Registry.constraint.given e.2.2)) := by
  obtain ⟨found, entries, listed⟩ := exists_entries schema.keyed .constraint "constraint key"
    decodeConstraint constraintOf (fun l k v held => decodeConstraint_entry schema held)
  refine ⟨found, entries, (read_registry _ _ _).trans listed, fun e member => ?_⟩
  exact read_nameOf (entries.entry schema member).toIds _

end

variable {R : Registry → Prop} {label property g : Str}

theorem mem_names_iff {l : List (Object × Str)} (catalogues : Catalogues R (givenName s) l)
    : name ∈ l.map (fun e => e.1.name e.2) ↔ Known R s name := by
  rw [mem_map]
  constructor
  · rintro ⟨⟨o, g⟩, member, same⟩
    obtain ⟨inside, found⟩ := (catalogues.mem o g).mp member
    exact ⟨o, g, inside, found, same⟩
  · rintro ⟨o, g, inside, found, same⟩
    exact ⟨(o, g), (catalogues.mem o g).mpr ⟨inside, found⟩, same⟩

/-- All indexes, as `listAllIndexes` gives them. -/
structure ShowsIndexes (s : Store) (infos : List IndexInfo) : Prop where
  read : listAllIndexes.read s = .ok infos
  objects
    : ∀ ix ∈ infos, ∃ o v, (ix.rel = false ∧ o.registry = .index ∨ ix.rel = true ∧ o.registry = .relIndex)
      ∧ Entry s o ix.labelID ix.keyID v ∧ ix.name = o.name (o.registry.given v)
  names : ∀ name, name ∈ infos.map IndexInfo.name ↔ Known IndexLike s name
  nodup : (infos.map IndexInfo.name).Nodup ↔ Distinct IndexLike (givenName s)

theorem exists_showsIndexes (schema : Schema s) : ∃ infos, ShowsIndexes s infos := by
  obtain ⟨nodes, rels, nodeEntries, relEntries, read⟩ := read_listAllIndexes schema
  have apart : ∀ r, r = Registry.index → ¬ r = Registry.relIndex := by
    rintro r rfl ⟨⟩
  have both := (nodeEntries.catalogues schema).append (relEntries.catalogues schema) apart
  have names : (nodes.map (infoOf s .index) ++ rels.map (infoOf s .relIndex)).map IndexInfo.name
      = (nodes.map (fun e => (objectOf s .index e, Registry.index.given e.2.2))
        ++ rels.map (fun e => (objectOf s .relIndex e, Registry.relIndex.given e.2.2))).map
          (fun e => e.1.name e.2) := by
    rw [map_append, map_append, map_map, map_map, map_map, map_map]
    rfl
  refine ⟨_, read, fun ix member => ?_, fun name => ?_, ?_⟩
  · obtain node | rel := mem_append.mp member
    · obtain ⟨e, among, rfl⟩ := mem_map.mp node
      exact ⟨_, _, .inl ⟨rfl, rfl⟩, nodeEntries.entry schema among, rfl⟩
    · obtain ⟨e, among, rfl⟩ := mem_map.mp rel
      exact ⟨_, _, .inr ⟨rfl, rfl⟩, relEntries.entry schema among, rfl⟩
  · rw [names, mem_names_iff both]
    rfl
  · rw [names, both.nodup_iff]
    rfl

def namedOf (s : Store) (e : UInt32 × UInt32 × Bytes) : ConstraintDef × Str × Str × Str :=
  (constraintOf e, (objectOf s .constraint e).owner, (objectOf s .constraint e).prop,
    (objectOf s .constraint e).name (Registry.constraint.given e.2.2))

/-- All constraints with their names, and the first one of a name. -/
structure ShowsConstraints (s : Store) (named : List (ConstraintDef × Str × Str × Str)) : Prop where
  read : (listConstraints.bind namedConstraints).read s = .ok named
  find : ∀ name, (findConstraint name).read s = .ok ((named.find? (fun e => e.2.2.2 = name)).map Prod.fst)
  objects
    : ∀ e ∈ named, ∃ o v, o.registry = .constraint ∧ Entry s o e.1.label e.1.propKey v
      ∧ e.2.2.2 = o.name (o.registry.given v)
  names : ∀ name, name ∈ named.map (·.2.2.2) ↔ Known (· = .constraint) s name
  nodup : (named.map (·.2.2.2)).Nodup ↔ Distinct (· = .constraint) (givenName s)

section

variable {found : List (UInt32 × UInt32 × Bytes)}

theorem reads_constraintName (d : ConstraintDef) : (constraintName d).Reads :=
  reads_nameOf reads_labelName _ _ _

theorem read_namedConstraints
    (named : ∀ e ∈ found, (constraintName (constraintOf e)).read s = .ok (namedOf s e).2)
    : (namedConstraints (found.map constraintOf)).read s = .ok (found.map (namedOf s)) := by
  induction found with
  | nil => rfl
  | cons e rest ih =>
    have later := ih fun e member => named e (mem_cons_of_mem _ member)
    refine (read_bind_of_ok (reads_constraintName _) (named e mem_cons_self)).trans ?_
    exact read_bind_of_ok (reads_namedConstraints _) later

theorem read_findNamed (name : Str)
    (named : ∀ e ∈ found, (constraintName (constraintOf e)).read s = .ok (namedOf s e).2)
    : (findNamed name (found.map constraintOf)).read s
      = .ok (((found.map (namedOf s)).find? (fun e => e.2.2.2 = name)).map Prod.fst) := by
  induction found with
  | nil => rfl
  | cons e rest ih =>
    have later := ih fun e member => named e (mem_cons_of_mem _ member)
    refine (read_bind_of_ok (reads_constraintName _) (named e mem_cons_self)).trans ?_
    by_cases same : (namedOf s e).2.2.2 = name
    · rw [map_cons, find?_cons_of_pos (by simpa using same)]
      simp only [same, if_true]
      rfl
    · rw [map_cons, find?_cons_of_neg (by simpa using same)]
      simp only [same, if_false]
      exact later

theorem exists_showsConstraints (schema : Schema s) : ∃ named, ShowsConstraints s named := by
  obtain ⟨found, entries, listed, named⟩ := read_listConstraints schema
  have catalogues := entries.catalogues schema
  have names : (found.map (namedOf s)).map (·.2.2.2)
      = (found.map (fun e => (objectOf s .constraint e, Registry.constraint.given e.2.2))).map
          (fun e => e.1.name e.2) := by
    rw [map_map, map_map]
    rfl
  refine ⟨found.map (namedOf s), ?_, fun name => ?_, fun e member => ?_, fun name => ?_, ?_⟩
  · exact (read_bind_of_ok (reads_registry _ _ _) listed).trans (read_namedConstraints named)
  · exact (read_bind_of_ok (reads_registry _ _ _) listed).trans (read_findNamed name named)
  · obtain ⟨e, among, rfl⟩ := mem_map.mp member
    exact ⟨_, _, rfl, entries.entry schema among, rfl⟩
  · rw [names, mem_names_iff catalogues]
  · rw [names, catalogues.nodup_iff]

end

/-- A statement that changes indexes or constraints. -/
inductive Statement where
  | createIndex (x : CreateIndex)
  | dropIndex (name : Str) (ifExists : Bool)
  | createConstraint (name label property : Str)
  | dropConstraint (name : Str) (ifExists : Bool)

def Statement.body (ctx : Context) : Statement → Txn Unit
  | .createIndex x => createIndexRun ctx x
  | .dropIndex name ifExists => dropIndexRun ctx name ifExists
  | .createConstraint name label property => createConstraintRun ctx name label property
  | .dropConstraint name ifExists => dropConstraintRun ctx name ifExists

def indexObject (x : CreateIndex) : Object := ⟨if x.rel then .relIndex else .index, x.label, x.property⟩

section

variable {ctx : Context}

/-- What is known does not depend on anything but the objects. -/
theorem known_congr (same : ∀ o, R o.registry → givenName t o = givenName s o)
    : Known R t name ↔ Known R s name := by
  refine exists_congr fun o => exists_congr fun g => and_congr_right fun inside => ?_
  rw [same o inside]

theorem not_known_of_find {l : List α} {f : α → Str} (names : name ∈ l.map f ↔ Known R s name)
    (missing : l.find? (fun a => f a = name) = none)
    : ¬ Known R s name := by
  rw [← names, mem_map]
  rintro ⟨a, member, same⟩
  exact find?_eq_none.mp missing a member (by simpa using same)

/-- Interning the two names of an object gives its IDs and adds no object. -/
theorem ids_of_interned {rest : UInt32 → UInt32 → Txn Unit} (schema : Schema s)
    (ran : ((internDict o.registry.dict.fwdTag o.registry.dict.kind o.owner).bind fun l =>
      (internKey o.prop).bind (rest l)).run s = (.ok (), t))
    : ∃ l k mid, Schema mid ∧ (∀ o, givenName mid o = givenName s o) ∧ Ids mid o l k
      ∧ (rest l k).run mid = (.ok (), t) := by
  obtain ⟨l, between, owner, ran⟩ := run_bind_ok.mp ran
  obtain ⟨k, mid, prop, ran⟩ := run_bind_ok.mp ran
  obtain ⟨first, ownerID⟩ := interned_internDict (exec_exact_iff.mpr owner)
  obtain ⟨second, propID⟩ := interned_internDict (d := .key) (exec_exact_iff.mpr prop)
  obtain ⟨schema', same⟩ := schema.interned (first.trans second)
  refine ⟨l, k, mid, schema', same, ⟨?_, ?_⟩, ran⟩
  · exact (schema'.ordered _).idOf_iff.mp (second.keeps _ _ _ ownerID)
  · exact (schema'.ordered _).idOf_iff.mp propID

theorem reads_findAnyIndex (name : Str) : (findAnyIndex name).Reads :=
  .bind reads_listAllIndexes (fun _ => reads_ret _)

variable {infos : List IndexInfo}

theorem ShowsIndexes.find (shows : ShowsIndexes s infos) (name : Str)
    : (findAnyIndex name).read s = .ok (infos.find? (fun ix => ix.name = name)) :=
  read_bind_of_ok reads_listAllIndexes shows.read

/-- A name that is not refused is not known. -/
theorem refuseIndexName_ok (schema : Schema s) (ran : (refuseIndexName ctx name).run s = (.ok (), t))
    : t = s ∧ (name ≠ [] → ¬ Known IndexLike s name) := by
  obtain ⟨infos, shows⟩ := exists_showsIndexes schema
  rw [refuseIndexName] at ran
  split at ran
  next given =>
    obtain ⟨found, mid, asked, ran⟩ := run_bind_ok.mp ran
    obtain ⟨read, rfl⟩ := read_of_run (reads_findAnyIndex name) asked
    cases (shows.find name).symm.trans read
    cases known : infos.find? (fun ix => ix.name = name) with
    | some ix =>
      rw [known] at ran
      cases ran
    | none =>
      rw [known] at ran
      cases ran
      exact ⟨rfl, fun _ => not_known_of_find (shows.names name) known⟩
  next absent =>
    cases ran
    exact ⟨rfl, fun given => absurd given absent⟩

def Adds (o : Object) (g : Str) (s t : Store) : Prop :=
  ∀ o', givenName t o' = if o' = o then some g else givenName s o'

def Alike (s t : Store) : Prop := ∀ o, givenName t o = givenName s o

/-- CREATE INDEX changes nothing when the index is there, and otherwise adds it, with a name that is new when
it is given.
-/
def IndexCreated (x : CreateIndex) (s t : Store) : Prop :=
  (givenName s (indexObject x) ≠ none ∧ Alike s t)
    ∨ (givenName s (indexObject x) = none ∧ (x.name ≠ [] → ¬ Known IndexLike s x.name)
      ∧ Adds (indexObject x) x.name s t)

section

variable {x : CreateIndex} {l k : UInt32} {mid : Store}

theorem indexObject_registry (x : CreateIndex) : IndexLike (indexObject x).registry := by
  unfold indexObject IndexLike
  cases x.rel
  · exact .inl rfl
  · exact .inr rfl

theorem IndexLike.given {r : Registry} (indexLike : IndexLike r) (v : Bytes) : r.given v = v := by
  obtain rfl | rfl := indexLike <;> rfl

theorem IndexLike.not_constraint {r : Registry} (indexLike : IndexLike r) : r ≠ .constraint := by
  obtain rfl | rfl := indexLike <;> exact nofun

theorem indexCreated_of_some (schema : Schema mid) (alike : Alike s mid) (ids : Ids mid (indexObject x) l k)
    (found : Intreccio.cell mid ((indexObject x).registry.key l k) ≠ none)
    : IndexCreated x s mid := by
  refine .inl ⟨?_, alike⟩
  rw [← alike, schema.givenName_eq ids, Ne, Option.map_eq_none_iff]
  exact found

theorem indexCreated_of_none {build : Txn Unit} (schema : Schema mid) (alike : Alike s mid)
    (ids : Ids mid (indexObject x) l k) (missing : Intreccio.cell mid ((indexObject x).registry.key l k) = none)
    (registers : ∀ {t : Store}, build.run mid = (.ok (), t)
      → Registers (indexObject x).registry l k (some x.name) mid t)
    (ran : ((refuseIndexName ctx x.name).bind (fun _ => build)).run mid = (.ok (), t))
    : Schema t ∧ IndexCreated x s t := by
  obtain ⟨_, mid', refused, built⟩ := run_bind_ok.mp ran
  obtain ⟨rfl, fresh⟩ := refuseIndexName_ok schema refused
  have inside := indexObject_registry x
  obtain ⟨schema', added⟩ := schema.registers ids (registers built) fun constraint => absurd constraint
    inside.not_constraint
  refine ⟨schema', .inr ⟨?_, fun given known => fresh given ((known_congr fun o _ => alike o).mpr known), fun o => ?_⟩⟩
  · rw [← alike, schema.givenName_eq ids, missing]
    rfl
  · rw [added, ← alike, Option.map_some, inside.given]

/-- Comparing the name of an index with the one that is asked for changes nothing. -/
theorem reads_compareName {stem : String} {d : Dict} {owner propKey : UInt32} {given : Str}
    {p : Str × Str × Str → Prop} [DecidablePred p] {e : Str × Str × Str → Err}
    : ((nameOf stem (revName d.kind) owner propKey given).bind (fun names =>
      if p names then throw (e names) else pure ()) : Txn Unit).Reads := by
  refine .bind (reads_nameOf (fun _ => reads_revName _ _) _ _ _) (fun names => ?_)
  split
  · exact reads_fail _
  · exact reads_ret _

theorem createRelIndex_ok (schema : Schema s) (rel : x.rel = true)
    (ran : (createRelIndex ctx x).run s = (.ok (), t))
    : Schema t ∧ IndexCreated x s t := by
  have object : indexObject x = ⟨.relIndex, x.label, x.property⟩ := by rw [indexObject, if_pos rel]
  obtain ⟨l, k, mid', schema', alike, ids, ran⟩ :=
    ids_of_interned (o := ⟨.relIndex, x.label, x.property⟩) schema ran
  rw [← object] at ids
  have key : (indexObject x).registry.key l k = .relIndex l k := by rw [object]; rfl
  obtain ⟨found, mid'', asked, rest⟩ := run_bind_ok.mp ran
  obtain ⟨read, rfl⟩ := read_of_run (.bind (reads_lookup _) fun _ => reads_ret _) asked
  have held : found = (Intreccio.cell mid'' (.relIndex l k)).map (IndexDef.mk l k) := by
    cases read
    rfl
  cases known : Intreccio.cell mid'' (.relIndex l k) with
  | some v =>
    rw [held, known] at rest
    obtain ⟨_, rfl⟩ := read_of_run (reads_compareName (d := .type)) rest
    exact ⟨schema', indexCreated_of_some schema' alike ids (by simp [key, known])⟩
  | none =>
    rw [held, known] at rest
    refine indexCreated_of_none schema' alike ids (by rw [key, known]) (fun {t} built => ?_) rest
    rw [object]
    exact registers_buildRelIndex schema'.keyed (exec_exact_iff.mpr built)

theorem createIndexRun_ok (schema : Schema s) (ran : (createIndexRun ctx x).run s = (.ok (), t))
    : Schema t ∧ IndexCreated x s t := by
  rw [createIndexRun] at ran
  split at ran
  next rel => exact createRelIndex_ok schema rel ran
  next node =>
    have object : indexObject x = ⟨.index, x.label, x.property⟩ := by rw [indexObject, if_neg node]
    obtain ⟨l, k, mid', schema', alike, ids, ran⟩ :=
      ids_of_interned (o := ⟨.index, x.label, x.property⟩) schema ran
    rw [← object] at ids
    have key : (indexObject x).registry.key l k = .index l k := by rw [object]; rfl
    obtain ⟨found, mid'', asked, rest⟩ := run_bind_ok.mp ran
    obtain ⟨held, same⟩ := exec_hasIndex.mp (exec_exact_iff.mpr asked)
    subst same held
    cases known : Intreccio.cell mid'' (.index l k) with
    | some v =>
      rw [known, if_pos Option.isSome_some] at rest
      have unchanged := read_of_run (by
        split
        · exact .bind (.bind (reads_lookup _) fun _ => reads_ret _) fun d => reads_compareName (d := .label)
        · exact reads_ret _) rest
      obtain ⟨_, rfl⟩ := unchanged
      exact ⟨schema', indexCreated_of_some schema' alike ids (by simp [key, known])⟩
    | none =>
      rw [known] at rest
      refine indexCreated_of_none schema' alike ids (by rw [key, known]) (fun {t} built => ?_) rest
      rw [object]
      exact registers_buildIndex schema'.keyed (exec_exact_iff.mpr built)

end

/-- CREATE CONSTRAINT changes nothing when the constraint is there. Otherwise it adds the constraint, with a
name that is new when it is given, after an index without a name when the pair has none.
-/
def ConstraintCreated (name label property : Str) (s t : Store) : Prop :=
  (givenName s ⟨.constraint, label, property⟩ ≠ none ∧ Alike s t)
    ∨ (givenName s ⟨.constraint, label, property⟩ = none ∧ (name ≠ [] → ¬ Known (· = .constraint) s name)
      ∧ ((givenName s ⟨.index, label, property⟩ ≠ none ∧ Adds ⟨.constraint, label, property⟩ name s t)
        ∨ (givenName s ⟨.index, label, property⟩ = none ∧ ∃ mid, Adds ⟨.index, label, property⟩ [] s mid
          ∧ Adds ⟨.constraint, label, property⟩ name mid t)))

theorem reads_findNamed (name : Str) (defs : List ConstraintDef) : (findNamed name defs).Reads := by
  induction defs with
  | nil => exact reads_ret _
  | cons d rest ih =>
    refine .bind (reads_constraintName d) fun names => ?_
    dsimp only
    split
    · exact reads_ret _
    · exact ih

theorem reads_findConstraint (name : Str) : (findConstraint name).Reads :=
  .bind (reads_registry _ _ _) (reads_findNamed name)

theorem constraintCreated_of_none {name : Str} {l k : UInt32} {mid : Store} (schema : Schema mid)
    (alike : Alike s mid) (ids : Ids mid ⟨.constraint, label, property⟩ l k)
    (missing : Intreccio.cell mid (.constraint l k) = none)
    (fresh : name ≠ [] → ¬ Known (· = .constraint) mid name)
    (ran : (addUniqueConstraint l k name).run mid = (.ok (), t))
    : Schema t ∧ ConstraintCreated name label property s t := by
  have indexIds : Ids mid ⟨.index, label, property⟩ l k := ⟨ids.owner, ids.prop⟩
  have absent : givenName s ⟨.constraint, label, property⟩ = none := by
    rw [← alike, schema.givenName_eq ids]
    exact congrArg (Option.map _) missing
  have fresh' (given : name ≠ []) (known : Known (· = .constraint) s name) : False :=
    fresh given ((known_congr fun o _ => alike o).mpr known)
  have index : givenName s ⟨.index, label, property⟩
      = (Intreccio.cell mid (.index l k)).map Registry.index.given := by
    rw [← alike, schema.givenName_eq indexIds]
    rfl
  obtain ⟨had, registers⟩ | ⟨none', mid', registers, registers'⟩ :=
    registers_addUniqueConstraint schema.keyed (exec_exact_iff.mpr ran)
  · obtain ⟨schema', added⟩ := schema.registers ids registers fun _ => nofun
    refine ⟨schema', .inr ⟨absent, fresh', .inl ⟨?_, fun o => ?_⟩⟩⟩
    · rw [index, Ne, Option.map_eq_none_iff]
      exact had
    · rw [added, ← alike]
      rfl
  · obtain ⟨between, addedIndex⟩ := schema.registers indexIds registers nofun
    obtain ⟨schema', added⟩ := between.registers (registers.ids.mpr ids) registers' fun _ => nofun
    refine ⟨schema', .inr ⟨absent, fresh', .inr ⟨?_, mid', fun o => ?_, added⟩⟩⟩
    · rw [index, none']
      rfl
    · rw [addedIndex, ← alike]
      rfl

theorem createConstraintRun_ok {name : Str} (schema : Schema s)
    (ran : (createConstraintRun ctx name label property).run s = (.ok (), t))
    : Schema t ∧ ConstraintCreated name label property s t := by
  obtain ⟨l, k, mid', schema', alike, ids, ran⟩ :=
    ids_of_interned (o := ⟨.constraint, label, property⟩) schema ran
  obtain ⟨found, mid'', asked, rest⟩ := run_bind_ok.mp ran
  obtain ⟨held, same⟩ := exec_getConstraint (exec_exact_iff.mpr asked)
  subst same
  cases found with
  | some d =>
    obtain ⟨_, rfl⟩ := read_of_run (reads_compareName (d := .label)) rest
    refine ⟨schema', .inl ⟨?_, alike⟩⟩
    rw [← alike, schema'.givenName_eq ids, Ne, Option.map_eq_none_iff]
    exact Option.isSome_iff_ne_none.mp held.symm
  | none =>
    have missing : Intreccio.cell mid'' (.constraint l k) = none := by simpa using held.symm
    dsimp only at rest
    split at rest
    next given =>
      obtain ⟨named, shows⟩ := exists_showsConstraints schema'
      obtain ⟨other, mid₃, looked, rest⟩ := run_bind_ok.mp rest
      obtain ⟨read, rfl⟩ := read_of_run (reads_findConstraint name) looked
      cases (shows.find name).symm.trans read
      cases known : named.find? (fun e => e.2.2.2 = name) with
      | some e =>
        rw [known] at rest
        cases rest
      | none =>
        rw [known] at rest
        exact constraintCreated_of_none schema' alike ids missing (fun _ => not_known_of_find (shows.names name) known) rest
    next unnamed =>
      exact constraintCreated_of_none schema' alike ids missing (fun given => absurd given unnamed) rest

/-- The object of a name is removed, or there was none. -/
def IndexDropped (name : Str) (s t : Store) : Prop :=
  (¬ Known IndexLike s name ∧ t = s)
    ∨ ∃ o g, IndexLike o.registry ∧ givenName s o = some g ∧ o.name g = name
      ∧ ∀ o', givenName t o' = if o' = o then none else givenName s o'

theorem dropIndexRun_ok {ifExists : Bool} (schema : Schema s)
    (ran : (dropIndexRun ctx name ifExists).run s = (.ok (), t))
    : Schema t ∧ IndexDropped name s t := by
  obtain ⟨infos, shows⟩ := exists_showsIndexes schema
  obtain ⟨found, mid, looked, rest⟩ := run_bind_ok.mp ran
  obtain ⟨read, rfl⟩ := read_of_run (reads_findAnyIndex name) looked
  cases (shows.find name).symm.trans read
  cases known : infos.find? (fun ix => ix.name = name) with
  | none =>
    rw [known] at rest
    dsimp only at rest
    split at rest
    · cases rest
      exact ⟨schema, .inl ⟨not_known_of_find (shows.names name) known, rfl⟩⟩
    · cases rest
  | some ix =>
    rw [known] at rest
    obtain ⟨o, v, kind, entry, shown⟩ := shows.objects ix (mem_of_find?_eq_some known)
    have same : ix.name = name := by simpa using find?_some known
    have there : givenName mid o = some (o.registry.given v) :=
      schema.givenName_iff.mpr ⟨_, _, v, entry, rfl⟩
    have finish (inside : IndexLike o.registry)
        (registers : Registers o.registry ix.labelID ix.keyID none mid t)
        : Schema t ∧ IndexDropped name mid t := by
      obtain ⟨schema', removed⟩ := schema.registers entry.toIds registers nofun
      exact ⟨schema', .inr ⟨o, _, inside, there, shown.symm.trans same, removed⟩⟩
    dsimp only at rest
    obtain ⟨node, registry⟩ | ⟨rel, registry⟩ := kind
    · rw [if_neg (by simp [node])] at rest
      obtain ⟨d, mid', asked, rest⟩ := run_bind_ok.mp rest
      obtain ⟨_, same'⟩ := exec_getConstraint (exec_exact_iff.mpr asked)
      subst same'
      cases d with
      | some d =>
        obtain ⟨names, after, _, rest⟩ := run_bind_ok.mp rest
        cases rest
      | none =>
        have registers := registers_dropIndexEntries schema.keyed (exec_exact_iff.mpr rest)
        exact finish (.inl registry) (registry ▸ registers)
    · rw [if_pos rel] at rest
      have registers := registers_dropRelIndexEntries schema.keyed (exec_exact_iff.mpr rest)
      exact finish (.inr registry) (registry ▸ registers)

/-- The constraint of a name is removed, and perhaps the index of its pair, or there was none. -/
def ConstraintDropped (name : Str) (s t : Store) : Prop :=
  (¬ Known (· = .constraint) s name ∧ t = s)
    ∨ ∃ o g, o.registry = .constraint ∧ givenName s o = some g ∧ o.name g = name ∧ givenName t o = none
      ∧ (∀ o', o' ≠ o → o' ≠ ⟨.index, o.owner, o.prop⟩ → givenName t o' = givenName s o')
      ∧ ∀ g', givenName t ⟨.index, o.owner, o.prop⟩ = some g'
        → givenName s ⟨.index, o.owner, o.prop⟩ = some g'

theorem dropConstraintRun_ok {ifExists : Bool} (schema : Schema s)
    (ran : (dropConstraintRun ctx name ifExists).run s = (.ok (), t))
    : Schema t ∧ ConstraintDropped name s t := by
  obtain ⟨named, shows⟩ := exists_showsConstraints schema
  obtain ⟨found, mid, looked, rest⟩ := run_bind_ok.mp ran
  obtain ⟨read, rfl⟩ := read_of_run (reads_findConstraint name) looked
  cases (shows.find name).symm.trans read
  cases known : named.find? (fun e => e.2.2.2 = name) with
  | none =>
    rw [known] at rest
    dsimp only [Option.map_none] at rest
    split at rest
    · cases rest
      exact ⟨schema, .inl ⟨not_known_of_find (shows.names name) known, rfl⟩⟩
    · cases rest
  | some e =>
    rw [known] at rest
    obtain ⟨o, v, registry, entry, shown⟩ := shows.objects e (mem_of_find?_eq_some known)
    have same : e.2.2.2 = name := by simpa using find?_some known
    have there : givenName mid o = some (o.registry.given v) :=
      schema.givenName_iff.mpr ⟨_, _, v, entry, rfl⟩
    have indexIds : Ids mid ⟨.index, o.owner, o.prop⟩ e.1.label e.1.propKey := by
      refine ⟨?_, entry.prop⟩
      have owner := entry.owner
      rw [registry] at owner
      exact owner
    have held : Intreccio.cell mid (.constraint e.1.label e.1.propKey) = some v := by
      have held := entry.held
      rw [registry] at held
      exact held
    obtain ⟨missing, _⟩ | ⟨between, registers, rest⟩ :=
      registers_dropUniqueConstraint schema.keyed (exec_exact_iff.mpr rest)
    · rw [held] at missing
      cases missing
    · rw [← registry] at registers
      obtain ⟨schema', removed⟩ := schema.registers entry.toIds registers nofun
      have gone : givenName between o = none := by rw [removed, if_pos rfl]; rfl
      have others (o' : Object) (other : o' ≠ o) : givenName between o' = givenName mid o' := by
        rw [removed, if_neg other]
      have apart : (⟨.index, o.owner, o.prop⟩ : Object) ≠ o := by
        rintro same
        rw [← same] at registry
        cases registry
      obtain rfl | dropped := rest
      · refine ⟨schema', .inr ⟨o, _, registry, there, shown.symm.trans same, gone, ?_, ?_⟩⟩
        · exact fun o' other _ => others o' other
        · exact fun g' found => (others _ apart).symm.trans found
      · obtain ⟨schema'', removed'⟩ := schema'.registers (registers.ids.mpr indexIds) dropped nofun
        refine ⟨schema'', .inr ⟨o, _, registry, there, shown.symm.trans same, ?_, ?_, ?_⟩⟩
        · rw [removed', if_neg (Ne.symm apart), gone]
        · intro o' other notIndex
          rw [removed', if_neg notIndex, others o' other]
        · intro g' found
          rw [removed', if_pos rfl] at found
          cases found

/-- The names that are shown are different, and DROP by name removes what has the name and nothing else but
the index that a constraint created.
-/
structure NamesIdentify (ctx : Context) (s : Store) : Prop where
  indexes : ∃ rows, indexRows.read s = .ok rows ∧ (shownNames rows).Nodup
  constraints : ∃ rows, constraintRows.read s = .ok rows ∧ (shownNames rows).Nodup
  dropIndex
    : ∀ name ifExists t, (dropIndexRun ctx name ifExists).run s = (.ok (), t)
      → ∀ o g, givenName t o = some g ↔ givenName s o = some g ∧ ¬ (IndexLike o.registry ∧ o.name g = name)
  dropConstraint
    : ∀ name ifExists t, (dropConstraintRun ctx name ifExists).run s = (.ok (), t)
      → (∀ o g, o.registry = .constraint
          → (givenName t o = some g ↔ givenName s o = some g ∧ o.name g ≠ name))
        ∧ ∀ o, IndexLike o.registry
          → (o.registry = .index → ∀ g, givenName s ⟨.constraint, o.owner, o.prop⟩ = some g
            → Object.name ⟨.constraint, o.owner, o.prop⟩ g ≠ name)
          → givenName t o = givenName s o

theorem nodup_byName {l : List α} {name : α → Str} {row : α → Row}
    (named : ∀ a, cell (row a) (lit "name") = .str (name a))
    : (shownNames ((byName name l).map row)).Nodup ↔ (l.map name).Nodup := by
  have names : shownNames ((byName name l).map row) = ((byName name l).map name).map .str := by
    rw [shownNames, map_map, map_map]
    exact map_congr_left fun a _ => named a
  rw [names, nodup_map_iff fun a b => Val.str.inj]
  exact (List.Perm.map name (perm_insertionSort _ l)).nodup_iff

theorem ShowsIndexes.rows (shows : ShowsIndexes s infos)
    : ∃ rows, indexRows.read s = .ok rows ∧ ((shownNames rows).Nodup ↔ Distinct IndexLike (givenName s)) := by
  refine ⟨_, read_bind_of_ok reads_listAllIndexes shows.read, ?_⟩
  rw [← shows.nodup]
  exact nodup_byName fun ix => rfl

theorem ShowsConstraints.rows {named : List (ConstraintDef × Str × Str × Str)}
    (shows : ShowsConstraints s named)
    : ∃ rows, constraintRows.read s = .ok rows
      ∧ ((shownNames rows).Nodup ↔ Distinct (· = .constraint) (givenName s)) := by
  obtain ⟨defs, listed, names⟩ := (read_bind_ok (reads_registry _ _ _)).mp shows.read
  refine ⟨_, (read_bind_of_ok (reads_registry _ _ _) listed).trans
    (read_bind_of_ok (reads_namedConstraints _) names), ?_⟩
  rw [← shows.nodup]
  exact nodup_byName fun e => rfl

theorem IndexDropped.exact (dropped : IndexDropped name s t)
    (distinct : Distinct IndexLike (givenName s)) (o : Object) (g : Str)
    : givenName t o = some g ↔ givenName s o = some g ∧ ¬ (IndexLike o.registry ∧ o.name g = name) := by
  obtain ⟨unknown, rfl⟩ | ⟨o', g', inside, found, named, removed⟩ := dropped
  · exact ⟨fun found => ⟨found, fun both => unknown ⟨o, g, both.1, found, both.2⟩⟩, And.left⟩
  · rw [removed]
    split
    next same =>
      subst same
      refine ⟨nofun, fun ⟨found', other⟩ => absurd ⟨inside, ?_⟩ other⟩
      rw [← Option.some.inj (found.symm.trans found'), named]
    next other =>
      refine ⟨fun found' => ⟨found', fun both => other ?_⟩, And.left⟩
      exact distinct o o' g g' both.1 inside found' found (both.2.trans named.symm)

theorem ConstraintDropped.exact (dropped : ConstraintDropped name s t)
    (distinct : Distinct (· = .constraint) (givenName s)) (constraint : o.registry = .constraint)
    (g : Str)
    : givenName t o = some g ↔ givenName s o = some g ∧ o.name g ≠ name := by
  obtain ⟨unknown, rfl⟩ | ⟨o', g', inside, found, named, gone, others, _⟩ := dropped
  · exact ⟨fun found => ⟨found, fun same => unknown ⟨o, g, constraint, found, same⟩⟩, And.left⟩
  · by_cases same : o = o'
    · subst same
      rw [gone]
      refine ⟨nofun, fun ⟨found', other⟩ => absurd ?_ other⟩
      rw [← Option.some.inj (found.symm.trans found'), named]
    · have notIndex : o ≠ ⟨.index, o'.owner, o'.prop⟩ := by
        rintro rfl
        cases constraint
      rw [others o same notIndex]
      refine ⟨fun found' => ⟨found', fun named' => same ?_⟩, And.left⟩
      exact distinct o o' g g' constraint inside found' found (named'.trans named.symm)

/-- An index stays unless the constraint of the name is on its pair. -/
theorem ConstraintDropped.index (dropped : ConstraintDropped name s t) (inside : IndexLike o.registry)
    (other : o.registry = .index → ∀ g, givenName s ⟨.constraint, o.owner, o.prop⟩ = some g
      → Object.name ⟨.constraint, o.owner, o.prop⟩ g ≠ name)
    : givenName t o = givenName s o := by
  obtain ⟨_, rfl⟩ | ⟨⟨r, a, p⟩, g, rfl, found, named, _, others, _⟩ := dropped
  · rfl
  · refine others o ?_ ?_
    · rintro rfl
      exact inside.not_constraint rfl
    · rintro rfl
      exact other rfl g found named

/-- Names identify objects exactly when they are different. -/
theorem namesIdentify_iff (schema : Schema s)
    : NamesIdentify ctx s ↔ Distinct IndexLike (givenName s) ∧ Distinct (· = .constraint) (givenName s) := by
  obtain ⟨infos, indexes⟩ := exists_showsIndexes schema
  obtain ⟨named, constraints⟩ := exists_showsConstraints schema
  obtain ⟨rows, read, nodup⟩ := indexes.rows
  obtain ⟨rows', read', nodup'⟩ := constraints.rows
  constructor
  · rintro ⟨⟨_, shown, different⟩, ⟨_, shown', different'⟩, _, _⟩
    cases read.symm.trans shown
    cases read'.symm.trans shown'
    exact ⟨nodup.mp different, nodup'.mp different'⟩
  · rintro ⟨distinct, distinct'⟩
    refine ⟨⟨rows, read, nodup.mpr distinct⟩, ⟨rows', read', nodup'.mpr distinct'⟩, ?_, ?_⟩
    · intro name ifExists t ran o g
      exact (dropIndexRun_ok schema ran).2.exact distinct o g
    · intro name ifExists t ran
      have dropped := (dropConstraintRun_ok schema ran).2
      exact ⟨fun o g constraint => dropped.exact distinct' constraint g, fun o => dropped.index⟩

/-- The names that a statement makes up are not known. -/
def Statement.Clear (s : Store) : Statement → Prop
  | .createIndex x =>
    x.name = [] → givenName s (indexObject x) = none → ¬ Known IndexLike s ((indexObject x).name [])
  | .createConstraint name label property =>
    givenName s ⟨.constraint, label, property⟩ = none
      → (givenName s ⟨.index, label, property⟩ = none
          → ¬ Known IndexLike s (Object.name ⟨.index, label, property⟩ []))
        ∧ (name = [] → ¬ Known (· = .constraint) s (Object.name ⟨.constraint, label, property⟩ []))
  | _ => True

/-- The store after a statement; one that fails leaves it as it is. -/
def Statement.next (ctx : Context) (d : Statement) (s : Store) : Store :=
  match ((d.body ctx).run s).1 with
  | .ok _ => ((d.body ctx).run s).2
  | .error _ => s

/-- Names identify objects in every state of a run. -/
def AlwaysIdentify (ctx : Context) : List Statement → Store → Prop
  | [], s => NamesIdentify ctx s
  | d :: rest, s => NamesIdentify ctx s ∧ AlwaysIdentify ctx rest (d.next ctx s)

/-- No statement of a run that succeeds makes up a name that is known. -/
def EachClear (ctx : Context) : List Statement → Store → Prop
  | [], _ => True
  | d :: rest, s => (∀ t, (d.body ctx).run s = (.ok (), t) → d.Clear s) ∧ EachClear ctx rest (d.next ctx s)

theorem name_of_given (given : g ≠ []) : o.name g = g := if_neg given

/-- A new object keeps the names different exactly when its name is not known. -/
theorem Adds.distinct_iff (adds : Adds o g s t) (distinct : Distinct R (givenName s))
    (absent : givenName s o = none) (inside : R o.registry)
    : Distinct R (givenName t) ↔ ¬ Known R s (o.name g) := by
  rw [distinct_add_iff distinct absent inside fun o' _ => adds o']
  constructor
  · rintro fresh ⟨o', g', inside', found, same⟩
    exact fresh o' g' inside' found same
  · intro unknown o' g' inside' found same
    exact unknown ⟨o', g', inside', found, same⟩

theorem Adds.same_of_not {o o' : Object} (adds : Adds o g s t) (outside : ¬ R o.registry)
    (inside : R o'.registry)
    : givenName t o' = givenName s o' := by
  rw [adds o', if_neg]
  rintro rfl
  exact outside inside

theorem distinct_congr (same : ∀ o, R o.registry → givenName t o = givenName s o)
    : Distinct R (givenName t) ↔ Distinct R (givenName s) := by
  constructor
  · exact fun distinct => distinct.mono fun o g inside found => (same o inside).trans found
  · exact fun distinct => distinct.mono fun o g inside found => (same o inside).symm.trans found

/-- A name that is new when it is given is new exactly when it is not made up to be a known one. -/
theorem unknown_name_iff (fresh : name ≠ [] → ¬ Known R s name)
    : ¬ Known R s (o.name name) ↔ (name = [] → ¬ Known R s (o.name [])) := by
  by_cases unnamed : name = []
  · subst unnamed
    exact ⟨fun unknown _ => unknown, fun unknown => unknown rfl⟩
  · rw [name_of_given unnamed]
    exact iff_of_true (fresh unnamed) fun absent => absurd absent unnamed

theorem IndexCreated.distinct_iff {x : CreateIndex} (created : IndexCreated x s t)
    (indexes : Distinct IndexLike (givenName s)) (constraints : Distinct (· = .constraint) (givenName s))
    : (Distinct IndexLike (givenName t) ∧ Distinct (· = .constraint) (givenName t))
      ↔ (Statement.createIndex x).Clear s := by
  obtain ⟨there, alike⟩ | ⟨absent, fresh, adds⟩ := created
  · refine iff_of_true ⟨?_, ?_⟩ fun _ absent => absurd absent there
    · exact (distinct_congr fun o _ => alike o).mpr indexes
    · exact (distinct_congr fun o _ => alike o).mpr constraints
  · have inside := indexObject_registry x
    have kept := (distinct_congr fun o => adds.same_of_not inside.not_constraint).mpr constraints
    rw [and_iff_left kept, adds.distinct_iff indexes absent inside, unknown_name_iff fresh]
    exact ⟨fun unknown unnamed _ => unknown unnamed, fun unknown unnamed => unknown unnamed absent⟩

theorem ConstraintCreated.distinct_iff {name : Str}
    (created : ConstraintCreated name label property s t)
    (indexes : Distinct IndexLike (givenName s)) (constraints : Distinct (· = .constraint) (givenName s))
    : (Distinct IndexLike (givenName t) ∧ Distinct (· = .constraint) (givenName t))
      ↔ (Statement.createConstraint name label property).Clear s := by
  obtain ⟨there, alike⟩ | ⟨absent, fresh, ⟨there, adds⟩ | ⟨missing, mid, addsIndex, adds⟩⟩ := created
  · refine iff_of_true ⟨?_, ?_⟩ fun absent => absurd absent there
    · exact (distinct_congr fun o _ => alike o).mpr indexes
    · exact (distinct_congr fun o _ => alike o).mpr constraints
  · have outside : ¬ IndexLike Registry.constraint := fun inside => inside.not_constraint rfl
    have kept := (distinct_congr fun o => adds.same_of_not outside).mpr indexes
    rw [and_iff_right kept, adds.distinct_iff constraints absent rfl, unknown_name_iff fresh]
    exact ⟨fun unknown _ => ⟨fun missing => absurd missing there, unknown⟩, fun clear => (clear absent).2⟩
  · have outside : ¬ IndexLike Registry.constraint := fun inside => inside.not_constraint rfl
    have alike (o : Object) (constraint : o.registry = .constraint) : givenName mid o = givenName s o :=
      addsIndex.same_of_not (R := (· = .constraint)) (by simp) constraint
    have between := (distinct_congr alike).mpr constraints
    rw [distinct_congr fun o => adds.same_of_not outside, addsIndex.distinct_iff indexes missing (.inl rfl),
      adds.distinct_iff between ((alike _ rfl).trans absent) rfl, known_congr (R := (· = .constraint)) alike,
      unknown_name_iff fresh]
    exact ⟨fun both _ => ⟨fun _ => both.1, both.2⟩, fun clear => ⟨(clear absent).1 missing, (clear absent).2⟩⟩

theorem ConstraintDropped.fewer (dropped : ConstraintDropped name s t)
    (found : givenName t o = some g)
    : givenName s o = some g := by
  obtain ⟨_, rfl⟩ | ⟨o', _, _, _, _, gone, others, index⟩ := dropped
  · exact found
  · by_cases same : o = o'
    · subst same
      rw [gone] at found
      cases found
    · by_cases ofPair : o = ⟨.index, o'.owner, o'.prop⟩
      · subst ofPair
        exact index g found
      · rwa [others o same ofPair] at found

/-- After a statement that succeeds the names are different exactly when the statement made up none that was
known.
-/
theorem namesIdentify_step {d : Statement} (schema : Schema s) (identify : NamesIdentify ctx s)
    (ran : (d.body ctx).run s = (.ok (), t))
    : Schema t ∧ (NamesIdentify ctx t ↔ d.Clear s) := by
  obtain ⟨indexes, constraints⟩ := (namesIdentify_iff schema).mp identify
  have fewer (schema' : Schema t) (less : ∀ o g, givenName t o = some g → givenName s o = some g)
      : NamesIdentify ctx t :=
    (namesIdentify_iff schema').mpr
      ⟨indexes.mono fun o g _ => less o g, constraints.mono fun o g _ => less o g⟩
  cases d with
  | createIndex x =>
    obtain ⟨schema', created⟩ := createIndexRun_ok schema ran
    exact ⟨schema', (namesIdentify_iff schema').trans (created.distinct_iff indexes constraints)⟩
  | dropIndex name ifExists =>
    obtain ⟨schema', dropped⟩ := dropIndexRun_ok schema ran
    refine ⟨schema', iff_of_true (fewer schema' fun o g found => ?_) trivial⟩
    exact ((dropped.exact indexes o g).mp found).1
  | createConstraint name label property =>
    obtain ⟨schema', created⟩ := createConstraintRun_ok schema ran
    exact ⟨schema', (namesIdentify_iff schema').trans (created.distinct_iff indexes constraints)⟩
  | dropConstraint name ifExists =>
    obtain ⟨schema', dropped⟩ := dropConstraintRun_ok schema ran
    exact ⟨schema', iff_of_true (fewer schema' fun o g => dropped.fewer) trivial⟩

theorem AlwaysIdentify.first {l : List Statement} (always : AlwaysIdentify ctx l s) : NamesIdentify ctx s := by
  cases l with
  | nil => exact always
  | cons d rest => exact always.1

/-- From a state where names identify objects they do so in the whole run exactly when no statement makes up
a name that is known.
-/
theorem alwaysIdentify_from_iff {l : List Statement} (schema : Schema s) (identify : NamesIdentify ctx s)
    : AlwaysIdentify ctx l s ↔ EachClear ctx l s := by
  induction l generalizing s with
  | nil => exact iff_of_true identify trivial
  | cons d rest ih =>
    rw [AlwaysIdentify, EachClear, and_iff_right identify]
    cases outcome : (d.body ctx).run s with
    | mk result t =>
      cases result with
      | error e =>
        have same : d.next ctx s = s := by rw [Statement.next, outcome]
        rw [same, ih schema identify]
        refine (and_iff_right fun t' succeeds => ?_).symm
        cases succeeds
      | ok u =>
        have next : d.next ctx s = t := by rw [Statement.next, outcome]
        obtain ⟨schema', step⟩ := namesIdentify_step schema identify outcome
        rw [next]
        constructor
        · intro always
          have identify' := always.first
          exact ⟨fun _ _ => step.mp identify', (ih schema' identify').mp always⟩
        · rintro ⟨clear, later⟩
          exact (ih schema' (step.mpr (clear t rfl))).mpr later

theorem namesIdentify_empty : NamesIdentify ctx .empty := by
  have none' (o : Object) : givenName .empty o = none := rfl
  refine (namesIdentify_iff .empty).mpr ⟨?_, ?_⟩
  · rintro o o' g g' _ _ found
    rw [none'] at found
    cases found
  · rintro o o' g g' _ _ found
    rw [none'] at found
    cases found

/-- In the runs from an empty store names identify objects in every state exactly when no statement that
succeeds makes up a name that is known.
-/
theorem alwaysIdentify_iff (ctx : Context) (l : List Statement)
    : AlwaysIdentify ctx l .empty ↔ EachClear ctx l .empty :=
  alwaysIdentify_from_iff .empty namesIdentify_empty

end

/-- An index that is created without a name. -/
def unnamedOn (label property : String) : Statement := .createIndex ⟨[], lit label, lit property, false⟩

theorem alwaysIdentify_one : AlwaysIdentify .bare [unnamedOn "A_b" "c"] .empty := by
  refine (alwaysIdentify_iff _ _).mpr ⟨fun t _ _ _ => ?_, trivial⟩
  rintro ⟨o, g, _, found, _⟩
  cases found

/-- `CREATE INDEX FOR (n:A_b) ON (n.c)` and `CREATE INDEX FOR (n:A) ON (n.b_c)` both make an index that is
shown as `index_A_b_c`.
-/
theorem not_alwaysIdentify_underscore
    : ¬ AlwaysIdentify .bare [unnamedOn "A_b" "c", unnamedOn "A" "b_c"] .empty := by
  rw [alwaysIdentify_from_iff .empty namesIdentify_empty]
  rintro ⟨_, clear, _⟩
  exact clear _ rfl rfl rfl ⟨⟨.index, lit "A_b", lit "c"⟩, [], .inl rfl, rfl, rfl⟩

end Intreccio.Exec
