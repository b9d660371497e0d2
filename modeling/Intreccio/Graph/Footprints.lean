import Intreccio.Foundation.Footprint
import Intreccio.Graph.Keyspace

/-! What each function of the catalog and the graph layer may write.
The footprints are read off the bodies, so they hold whatever the store answers.
-/

namespace Intreccio

open Kv Kv.Program Words Codec Catalog

namespace Catalog

@[simp, grind ←] theorem reads_lookupDict (fwdTag : UInt8) (name : Str) : (lookupDict fwdTag name).Reads := by
  grind [lookupDict]

@[simp, grind ←] theorem reads_revName (kind : UInt8) (id : UInt32) : (revName kind id).Reads := by
  grind [revName]

@[simp, grind ←] theorem reads_registered (key : Bytes) : (registered key).Reads := by grind [registered]

@[simp, grind ←] theorem reads_hasIndex (label propKey : UInt32) : (hasIndex label propKey).Reads := by
  grind [hasIndex]

@[simp, grind ←] theorem reads_hasRelIndex (typeID propKey : UInt32) : (hasRelIndex typeID propKey).Reads := by
  grind [hasRelIndex]

@[grind ←] theorem reads_getConstraint (label propKey : UInt32) : (getConstraint label propKey).Reads := by
  grind [getConstraint]

@[grind ←] theorem reads_hasUnique (label propKey : UInt32) : (hasUnique label propKey).Reads := by
  grind [hasUnique]

end Catalog

@[simp, grind ←] theorem reads_scan (stem : Bytes) : (scan stem).Reads := by grind [scan]

namespace Graph

@[simp, grind ←] theorem reads_getNode (id : UInt64) : (getNode id).Reads := by grind [getNode]

@[simp, grind ←] theorem reads_getEdge (id : UInt64) : (getEdge id).Reads := by grind [getEdge]

@[simp, grind ←] theorem reads_nodesByLabel (labelID : UInt32) : (nodesByLabel labelID).Reads := by
  grind [nodesByLabel]

@[simp, grind ←] theorem reads_outEdges (nodeID : UInt64) (typeID : UInt32) : (outEdges nodeID typeID).Reads := by
  grind [outEdges]

@[simp, grind ←] theorem reads_inEdges (nodeID : UInt64) (typeID : UInt32) : (inEdges nodeID typeID).Reads := by
  grind [inEdges]

@[grind ←] theorem reads_hasIncidentEdges (n : UInt64) : (hasIncidentEdges n).Reads := by
  refine .bind (fun _ => trivial) (fun leaving => reads_ite (reads_ret _) ?_)
  exact .bind (fun _ => trivial) (fun entering => reads_ite (reads_ret _) (reads_ret _))

@[grind ←] theorem reads_endpoint (what : String) (n : UInt64) : (endpoint what n).Reads :=
  .handle (.bind (reads_getNode n) (fun _ => reads_ret _)) (fun _ => reads_fail _)

@[grind ←] theorem reads_valueOwner (uk : Bytes) : (valueOwner uk).Reads := by grind [valueOwner]

@[grind ←] theorem reads_violation (l k : UInt32) (c : Scalar) : (violation l k c).Reads :=
  .bind (Catalog.reads_revName _ l) (fun _ => .bind (Catalog.reads_revName _ k) (fun _ => reads_fail _))

@[grind ←] theorem reads_lookupLabels (names : List Str) : (lookupLabels names).Reads := by
  induction names with
  | nil => exact reads_ret _
  | cons name rest ih => exact .bind (Catalog.reads_lookupDict _ name) (fun _ => .bind ih (fun _ => reads_ret _))

/-- Only keys of `K` changed. -/
structure Framed (K : Key → Prop) (s s' : Store) : Prop where
  keyed : WellKeyed s → WellKeyed s'
  frame : ∀ κ, ¬ K κ → cell s' κ = cell s κ

section Frames

variable {K K' : Key → Prop} {s s' : Store} {κ : Key}

theorem Framed.refl (K : Key → Prop) (s : Store) : Framed K s s := ⟨id, fun _ _ => rfl⟩

theorem Framed.trans {s₁ s₂ s₃ : Store} (first : Framed K s₁ s₂) (second : Framed K s₂ s₃) : Framed K s₁ s₃ :=
  ⟨fun keyed => second.keyed (first.keyed keyed),
    fun κ outside => (second.frame κ outside).trans (first.frame κ outside)⟩

theorem Framed.mono (changed : Framed K s s') (more : ∀ κ, K κ → K' κ) : Framed K' s s' :=
  ⟨changed.keyed, fun κ outside => changed.frame κ (fun inside => outside (more κ inside))⟩

theorem Framed.set (s : Store) (inside : K κ) (v : Bytes) : Framed K s (s.set κ.bytes v) := by
  refine ⟨fun keyed => keyed.set κ v, fun other outside => ?_⟩
  have differs : other ≠ κ := fun same => outside (same ▸ inside)
  rw [cell_set, if_neg differs]

theorem Framed.delete (s : Store) (inside : K κ) : Framed K s (s.delete κ.bytes) := by
  refine ⟨fun keyed => keyed.delete κ, fun other outside => ?_⟩
  have differs : other ≠ κ := fun same => outside (same ▸ inside)
  rw [cell_delete, if_neg differs]

/-- The body writes and erases only keys of `K`. -/
def Within {α : Type} (K : Key → Prop) (p : Txn α) : Prop :=
  p.Footprint (fun b => ∃ κ, K κ ∧ b = Key.bytes κ) (fun b => ∀ κ, b = Key.bytes κ → K κ)

variable {α β : Type} {rule : ScanRule Bytes Bytes} {p : Txn α}

theorem Within.framed {r : Except Err α} (within : Within K p)
    (ran : p.Exec rule s r s')
    : Framed K s s' := by
  obtain ⟨frame, added⟩ := Footprint.exec within ran
  refine ⟨fun keyed k present => ?_, fun κ outside => frame κ.bytes ?_ ?_⟩
  · rcases added k present with before | ⟨κ, _, rfl⟩
    · exact keyed k before
    · exact ⟨κ, rfl⟩
  · rintro ⟨κ', inside, same⟩
    exact outside (Key.bytes_inj.mp same ▸ inside)
  · exact fun covered => outside (covered κ rfl)

theorem Within.mono (within : Within K p) (more : ∀ κ, K κ → K' κ) : Within K' p :=
  Footprint.mono within (fun _ ⟨κ, inside, same⟩ => ⟨κ, more κ inside, same⟩)
    (fun _ covered κ same => more κ (covered κ same))

theorem Within.ofReads (reads : p.Reads) : Within K p := reads.footprint

@[simp] theorem within_ret (a : α) : Within K (ret a) := .ofReads (reads_ret a)

@[simp] theorem within_fail (e : Err) : Within K (fail e : Txn α) := .ofReads (reads_fail e)

@[simp] theorem within_ofExcept (x : Except Err α) : Within K (Program.ofExcept x) :=
  .ofReads (reads_ofExcept x)

@[simp] theorem within_lookup (k : Bytes) : Within K (lookup k) := .ofReads (reads_lookup k)

@[simp] theorem within_write {v : Bytes} : Within K (write κ.bytes v) ↔ K κ := by
  simp [Within]

@[simp] theorem within_erase : Within K (erase κ.bytes) ↔ K κ := by
  simp [Within]

theorem Within.bind {f : α → Txn β} (first : Within K p) (rest : ∀ a, Within K (f a)) : Within K (p.bind f) :=
  Footprint.bind first rest

theorem Within.each {items : List α} {body : α → Txn Unit} (all : ∀ a ∈ items, Within K (body a))
    : Within K (Program.each items body) :=
  Footprint.each all

end Frames

/-- The keys of dictionaries, counters and the format marker. -/
def CatalogKey : Key → Prop
  | .counter _ | .forward _ _ | .reverse _ _ | .format => True
  | _ => False

/-- The keys of the dictionaries, with their counters. -/
def DictKey : Key → Prop
  | .counter (.dict _) | .forward _ _ | .reverse _ _ => True
  | _ => False

theorem within_nextCounter (c : Counter) : Within (· = .counter c) (nextCounter c.kind) := by
  simp only [nextCounter, bind_eq, pure_eq, Key.counterKey_eq]
  refine .bind (within_lookup _) (fun held => ?_)
  have store (cur : UInt64) : Within (· = .counter c)
      ((write (Key.counter c).bytes (uint64Bytes (cur + 1))).bind (fun _ => ret (cur + 1))) :=
    Within.bind (within_write.mpr rfl) (fun _ => within_ret _)
  cases held with
  | none => exact store 0
  | some v => exact .bind (within_ofExcept _) store

theorem within_internDict (d : Dict) (name : Str) : Within DictKey (internDict d.fwdTag d.kind name) := by
  simp only [internDict, bind_eq, pure_eq, throw_eq, Key.forward_eq, Key.reverseKey_eq]
  refine .bind (within_lookup _) (fun held => ?_)
  cases held with
  | some v => exact within_ofExcept _
  | none =>
    have counted : Within DictKey (nextCounter d.kind) :=
      (within_nextCounter (.dict d)).mono (by rintro _ rfl; trivial)
    refine .bind counted (fun id => ?_)
    split
    · exact within_fail _
    · exact .bind (within_write.mpr trivial) (fun _ =>
        Within.bind (within_write.mpr trivial) (fun _ => within_ret _))

theorem within_requireFormat (v : UInt32) : Within (· = .format) (requireFormat v) := by
  simp only [requireFormat, bind_eq, pure_eq, Key.formatKey_eq]
  refine .bind (within_lookup _) (fun held => ?_)
  split
  · exact within_ret _
  · exact within_write.mpr rfl

/-- The index entry of a node under a pair, and the owners under the pair. -/
def EntryKey (l k : UInt32) (n : UInt64) : Key → Prop
  | .prop l' k' _ m => l' = l ∧ k' = k ∧ m = n
  | .unique l' k' _ => l' = l ∧ k' = k
  | _ => False

/-- Code behind a question about the registry. -/
def gated (ask : Txn Bool) (body : Txn Unit) : Txn Unit :=
  ask.bind fun b => if b = true then body else ret ()

theorem Within.gated {K : Key → Prop} {ask : Txn Bool} {body : Txn Unit} (reads : ask.Reads)
    (within : Within K body)
    : Within K (gated ask body) := by
  refine .bind (.ofReads reads) (fun b => ?_)
  split
  · exact within
  · exact within_ret _

/-- An entry without a value is written, or erased. -/
def mark (on : Bool) (κ : Key) : Txn Unit := if on then write κ.bytes [] else erase κ.bytes

theorem within_mark {K : Key → Prop} {on : Bool} : Within K (mark on κ) ↔ K κ := by
  cases on with
  | true => exact within_write
  | false => exact within_erase

theorem within_claimValue (l k : UInt32) (c : Scalar) (n : UInt64)
    : Within (EntryKey l k n) (claimValue l k c n) := by
  simp only [claimValue, bind_eq, pure_eq]
  cases uniqueValue c with
  | none => exact within_ret _
  | some d =>
    simp only [Key.uniqueKey_eq, ofExcept_ok_bind]
    refine .bind (.ofReads (reads_valueOwner _)) (fun owner => ?_)
    cases owner with
    | none => exact within_write.mpr ⟨rfl, rfl⟩
    | some m =>
      dsimp only
      split
      · exact .ofReads (reads_violation l k c)
      · exact within_ret _

theorem within_releaseValue (l k : UInt32) (c : Scalar) (n : UInt64)
    : Within (EntryKey l k n) (releaseValue l k c n) := by
  simp only [releaseValue, bind_eq, pure_eq]
  cases uniqueValue c with
  | none => exact within_ret _
  | some d =>
    simp only [Key.uniqueKey_eq, ofExcept_ok_bind]
    refine .bind (.ofReads (reads_valueOwner _)) (fun owner => ?_)
    cases owner with
    | none => exact within_ret _
    | some m =>
      dsimp only
      split
      · exact within_erase.mpr ⟨rfl, rfl⟩
      · exact within_ret _

/-- The owner of a value is entered, or taken out. -/
def editOwner (on : Bool) (l k : UInt32) (c : Scalar) (n : UInt64) : Txn Unit :=
  if on then claimValue l k c n else releaseValue l k c n

/-- An entry of a node is put, or removed. -/
abbrev editEntry (on : Bool) (l k : UInt32) (v : Val) (n : UInt64) : Txn Unit :=
  match on with
  | true => putPropEntry l k v n
  | false => delPropEntry l k v n

section Entries

variable {on : Bool} {l k t : UInt32} {v : Val} {c : Scalar} {n e : UInt64}

theorem editEntry_none (scalar : v.scalar? = none) : editEntry on l k v n = ret () := by
  cases on <;> simp [editEntry, putPropEntry, delPropEntry, scalar]

/-- A put and a removal ask the registry alike. -/
theorem editEntry_toVal
    : editEntry on l k c.toVal n = gated (hasIndex l k) ((mark on (.prop l k c n)).bind fun _ =>
        gated (hasUnique l k) (editOwner on l k c n)) := by
  have scalar : c.toVal.scalar? = some c := Val.scalar?_eq_some.mpr rfl
  cases on <;> simp only [editEntry, putPropEntry, delPropEntry, scalar, Key.propKey_eq, bind_eq, pure_eq,
    ofExcept_ok_bind] <;> rfl

theorem within_editEntry (on : Bool) (l k : UInt32) (v : Val) (n : UInt64)
    : Within (EntryKey l k n) (editEntry on l k v n) := by
  cases scalar : v.scalar? with
  | none => exact editEntry_none scalar ▸ within_ret _
  | some c =>
    obtain rfl := Val.scalar?_eq_some.mp scalar
    rw [editEntry_toVal]
    refine .gated (reads_hasIndex l k) (.bind (within_mark.mpr ⟨rfl, rfl, rfl⟩) fun _ => ?_)
    refine .gated (reads_hasUnique l k) ?_
    cases on with
    | true => exact within_claimValue l k c n
    | false => exact within_releaseValue l k c n

/-- The index entries of a node, and any owner. -/
def AnyEntry (n : UInt64) : Key → Prop
  | .prop _ _ _ m => m = n
  | .unique _ _ _ => True
  | _ => False

theorem EntryKey.any {l k : UInt32} {n : UInt64} (κ : Key) (entry : EntryKey l k n κ) : AnyEntry n κ := by
  cases κ <;> simp_all [EntryKey, AnyEntry]

theorem within_editAny (on : Bool) (l k : UInt32) (v : Val) (n : UInt64)
    : Within (AnyEntry n) (editEntry on l k v n) :=
  (within_editEntry on l k v n).mono EntryKey.any

/-- The index entries of an edge under a pair. -/
def RelEntryKey (t k : UInt32) (e : UInt64) : Key → Prop
  | .relProp t' k' _ e' => t' = t ∧ k' = k ∧ e' = e
  | _ => False

/-- An entry of an edge is put, or removed. -/
def editRelEntry (on : Bool) (t k : UInt32) (v : Val) (e : UInt64) : Txn Unit :=
  if on then putRelPropEntry t k v e else delRelPropEntry t k v e

theorem editRelEntry_none (scalar : v.scalar? = none) : editRelEntry on t k v e = ret () := by
  cases on <;> cases v <;> first | rfl | cases scalar

theorem editRelEntry_toVal
    : editRelEntry on t k c.toVal e = gated (hasRelIndex t k) (mark on (.relProp t k c e)) := by
  have indexable : isIndexable c.toVal = true := by cases c <;> rfl
  cases on <;> simp only [editRelEntry, putRelPropEntry, delRelPropEntry, indexable, Key.relPropKey_eq, bind_eq,
    pure_eq, ofExcept_ok_bind] <;> rfl

theorem within_editRelEntry (on : Bool) (t k : UInt32) (v : Val) (e : UInt64)
    : Within (RelEntryKey t k e) (editRelEntry on t k v e) := by
  cases scalar : v.scalar? with
  | none => exact editRelEntry_none scalar ▸ within_ret _
  | some c =>
    obtain rfl := Val.scalar?_eq_some.mp scalar
    rw [editRelEntry_toVal]
    exact .gated (reads_hasRelIndex t k) (within_mark.mpr ⟨rfl, rfl, rfl⟩)

end Entries

/-- The keys of one node: its record, labels and index entries, and any owner. -/
def NodeKey (n : UInt64) : Key → Prop
  | .node m | .label _ m | .prop _ _ _ m => m = n
  | .unique _ _ _ => True
  | _ => False

theorem EntryKey.nodeKey {l k : UInt32} {n : UInt64} (κ : Key) (entry : EntryKey l k n κ) : NodeKey n κ := by
  cases κ <;> simp_all [EntryKey, NodeKey]

theorem AnyEntry.nodeKey {n : UInt64} (κ : Key) (entry : AnyEntry n κ) : NodeKey n κ := by
  cases κ <;> simp_all [AnyEntry, NodeKey]

/-- The keys an operation on one node may change when it names labels or properties. -/
def NodeOrDict (n : UInt64) (κ : Key) : Prop := NodeKey n κ ∨ DictKey κ

theorem within_internLabels (seen : List UInt32) (names : List Str)
    : Within DictKey (internLabels seen names) := by
  induction names generalizing seen with
  | nil => exact within_ret _
  | cons name rest ih =>
    refine .bind (within_internDict .label name) (fun id => ?_)
    split
    · exact ih seen
    · exact .bind (ih (id :: seen)) (fun _ => within_ret _)

theorem within_internEntries (skipNull : Bool) (entries : List (Str × Val)) (out : Props)
    : Within DictKey (internEntries skipNull entries out) := by
  induction entries generalizing out with
  | nil => exact within_ret _
  | cons entry rest ih =>
    obtain ⟨name, v⟩ := entry
    rw [internEntries]
    split
    · exact ih out
    · exact .bind (within_internDict .key name) (fun id => ih _)

theorem within_putNodeRecord (n : UInt64) (r : NodeRecord) : Within (NodeKey n) (putNodeRecord n r) :=
  Within.bind (within_ofExcept _) (fun _ => (within_write (κ := .node n)).mpr rfl)

theorem within_editEntries (on : Bool) (l k : UInt32) (v : Val) (n : UInt64)
    : Within (NodeKey n) (editEntry on l k v n) :=
  (within_editEntry on l k v n).mono EntryKey.nodeKey

/-- The rows of a node are put, or removed. -/
def editNodeIndexes (on : Bool) (o : MapOrder) (n : UInt64) (r : NodeRecord) : Txn Unit :=
  if on then putNodeIndexes o n r else delNodeIndexes o n r

theorem editNodeIndexes_eq (on : Bool) (o : MapOrder) (n : UInt64) (r : NodeRecord)
    : editNodeIndexes on o n r = Program.each r.labels.zipIdx fun row =>
        (mark on (.label row.1 n)).bind fun _ =>
          Program.each ((o.sub row.2).range r.props.entries) fun e => editEntry on row.1 e.1 e.2 n := by
  cases on <;> rfl

theorem within_editNodeIndexes (on : Bool) (o : MapOrder) (n : UInt64) (r : NodeRecord)
    : Within (NodeKey n) (editNodeIndexes on o n r) := by
  rw [editNodeIndexes_eq]
  refine .each (fun row _ => Within.bind (within_mark.mpr rfl) (fun _ => ?_))
  exact .each (fun e _ => within_editEntries on row.1 e.1 e.2 n)

theorem Within.node {α : Type} {p : Txn α} {n : UInt64} (within : Within (NodeKey n) p)
    : Within (NodeOrDict n) p :=
  within.mono (fun _ => .inl)

theorem Within.dict {α : Type} {p : Txn α} (n : UInt64) (within : Within DictKey p)
    : Within (NodeOrDict n) p :=
  within.mono (fun _ => .inr)

theorem within_setProperty (n : UInt64) (key : Str) (value : Val)
    : Within (NodeOrDict n) (setProperty n key value) := by
  simp only [setProperty, bind_eq]
  refine .bind (.ofReads (reads_getNode n)) (fun node => ?_)
  refine .bind ((within_internDict .key key).dict n) (fun keyID => ?_)
  refine .bind (Within.each (fun l _ => ?_)) (fun _ => (within_putNodeRecord n _).node)
  cases node.props.get keyID with
  | none => exact (within_editEntries true l keyID _ n).node
  | some v =>
    exact .bind (within_editEntries false l keyID v n).node
      (fun _ => (within_editEntries true l keyID _ n).node)

theorem within_removeProperty (n : UInt64) (key : Str) : Within (NodeKey n) (removeProperty n key) := by
  simp only [removeProperty, bind_eq, pure_eq]
  refine .bind (.ofReads (reads_getNode n)) (fun node => ?_)
  refine .bind (.ofReads (reads_lookupDict _ key)) (fun known => ?_)
  cases known with
  | none => exact within_ret _
  | some keyID =>
    dsimp only
    cases node.props.get keyID with
    | none => exact within_ret _
    | some old =>
      exact .bind (Within.each (fun l _ => within_editEntries false l keyID old n))
        (fun _ => within_putNodeRecord n _)

theorem within_mergeAny (n : UInt64) (labels : List UInt32) (entries : List (UInt32 × Val))
    (props : Props)
    : Within (AnyEntry n) (mergeEntries n labels entries props) := by
  induction entries generalizing props with
  | nil => exact within_ret _
  | cons entry rest ih =>
    obtain ⟨keyID, new⟩ := entry
    simp only [mergeEntries, bind_eq]
    cases props.get keyID with
    | none => exact ih _
    | some old =>
      dsimp only
      split
      · exact .bind (Within.each (fun l _ => within_editAny false l keyID old n)) (fun _ => ih _)
      · exact ih _

theorem within_setNodeProperties (o : MapOrder) (n : UInt64) (props : OrderedMap Str Val)
    (replace : Bool)
    : Within (NodeOrDict n) (setNodeProperties o n props replace) := by
  simp only [setNodeProperties, bind_eq, pure_eq]
  refine .bind (.ofReads (reads_getNode n)) (fun node => ?_)
  refine .bind ((within_internEntries _ _ _).dict n) (fun desired => ?_)
  have store (updated : Props) : Within (NodeKey n)
      ((each ((o.sub 4).range updated.entries) (fun e =>
        each node.labels (fun l => putPropEntry l e.1 e.2 n))).bind
        (fun _ => putNodeRecord n ⟨node.labels, updated⟩)) :=
    Within.bind (Within.each (fun e _ =>
      Within.each (fun l _ => within_editEntries true l e.1 e.2 n))) (fun _ => within_putNodeRecord n _)
  split
  · refine (Within.bind (Within.each (fun e _ => ?_)) (fun _ => store _)).node
    split
    · exact within_ret _
    · exact .each (fun l _ => within_editEntries false l e.1 e.2 n)
  · exact (Within.bind ((within_mergeAny n _ _ _).mono AnyEntry.nodeKey) store).node

theorem within_addLabels (o : MapOrder) (n : UInt64) (labels : List Str)
    : Within (NodeOrDict n) (addLabels o n labels) := by
  simp only [addLabels, bind_eq, pure_eq]
  split
  · exact within_ret _
  · refine .bind (.ofReads (reads_getNode n)) (fun node => ?_)
    refine .bind ((within_internLabels _ _).dict n) (fun added => ?_)
    split
    · exact within_ret _
    · exact (Within.bind (within_editNodeIndexes true o n _) (fun _ => within_putNodeRecord n _)).node

theorem within_removeLabels (o : MapOrder) (n : UInt64) (labels : List Str)
    : Within (NodeKey n) (removeLabels o n labels) := by
  simp only [removeLabels, bind_eq, pure_eq]
  split
  · exact within_ret _
  · refine .bind (.ofReads (reads_getNode n)) (fun node => ?_)
    refine .bind (.ofReads (reads_lookupLabels labels)) (fun toRemove => ?_)
    split
    · exact within_ret _
    · exact .bind (within_editNodeIndexes false o n _) (fun _ => within_putNodeRecord n _)

theorem within_deleteNode (o : MapOrder) (n : UInt64) : Within (NodeKey n) (deleteNode o n) := by
  simp only [deleteNode, bind_eq, throw_eq]
  refine .bind (.ofReads (reads_getNode n)) (fun node => ?_)
  refine .bind (.ofReads (reads_hasIncidentEdges n)) (fun incident => ?_)
  split
  · exact within_fail _
  · exact .bind (within_editNodeIndexes false o n _) (fun _ =>
      (within_erase (κ := .node n)).mpr rfl)

/-- The keys that belong to one edge. -/
def OfEdge (e : UInt64) : Key → Prop
  | .edge e' | .out _ _ _ e' | .inn _ _ _ e' | .relProp _ _ _ e' => e' = e
  | _ => False

theorem RelEntryKey.ofEdge {t k : UInt32} {e : UInt64} (κ : Key) (entry : RelEntryKey t k e κ)
    : OfEdge e κ := by
  cases κ <;> simp_all [RelEntryKey, OfEdge]

theorem within_deleteEdge (o : MapOrder) (e : UInt64) : Within (OfEdge e) (deleteEdge o e) := by
  simp only [deleteEdge, bind_eq, Key.outKey_eq, Key.inKey_eq, Key.edgeKey_eq]
  refine .bind (.ofReads (reads_getEdge e)) (fun edge => ?_)
  refine .bind (within_erase.mpr rfl) (fun _ => Within.bind (within_erase.mpr rfl)
    (fun _ => Within.bind (Within.each (fun p _ => ?_)) (fun _ => within_erase.mpr rfl)))
  exact (within_editRelEntry false edge.type p.1 p.2 e).mono RelEntryKey.ofEdge

end Graph

end Intreccio
