import Intreccio.Foundation.Invariants
import Intreccio.Graph.Runs

/-! What the cells of a store hold. The operations write well-formed values only, whatever the
store holds, so in every state reached, also after the counters went round, every record and every
owner entry can be read.
-/

namespace Intreccio.Graph

open Kv Kv.Program Words Codec Catalog List

/-- The values that may stand under a key. -/
def Fits : Key → Bytes → Prop
  | .node _, b => ∃ r, Recordable r ∧ encodeNode r = .ok b
  | .unique _ _ _, b => ∃ n, b = uint64Bytes n
  | .counter _, b => ∃ c, b = uint64Bytes c
  | .prop _ _ _ _, b => b = []
  | .constraint _ _, b => b ≠ []
  | _, _ => True

/-- Every cell holds a value that fits. -/
def Legible (s : Store) : Prop := ∀ κ b, cell s κ = some b → Fits κ b

variable {s s' : Store} {n : UInt64} {α : Type}

theorem Legible.empty : Legible .empty := by
  intro κ b held
  simp at held

theorem Legible.set (legible : Legible s) {κ : Key} {b : Bytes} (fits : Fits κ b)
    : Legible (s.set κ.bytes b) := by
  intro κ' b' held
  rw [cell_set] at held
  split at held
  case isTrue same =>
    subst same
    exact Option.some.inj held ▸ fits
  case isFalse => exact legible κ' b' held

theorem Legible.erase (legible : Legible s) (key : Bytes) : Legible (s.delete key) := by
  intro κ b held
  rw [cell, OrderedMap.get_delete] at held
  split at held
  case isTrue => cases held
  case isFalse => exact legible κ b held

theorem legible_write {κ : Key} {b : Bytes} (fits : Fits κ b)
    : Maintains Legible (write κ.bytes b : Txn Unit) (fun _ => True) :=
  maintains_write (fun _ legible => legible.set fits)

theorem legible_erase (key : Bytes) : Maintains Legible (Program.erase key : Txn Unit) (fun _ => True) :=
  maintains_erase (fun _ legible => legible.erase key)

theorem legible_within {K : Key → Prop} {p : Txn α} (within : Within K p)
    (free : ∀ κ b, K κ → Fits κ b)
    : Maintains Legible p (fun _ => True) := by
  intro m a m' legible ran
  refine ⟨fun κ b held => ?_, trivial⟩
  by_cases inside : K κ
  · exact free κ b inside
  · exact legible κ b ((within.framed ran).frame κ inside ▸ held)

theorem legible_reads {p : Txn α} (within : Within (fun _ => False) p)
    : Maintains Legible p (fun _ => True) :=
  legible_within within (fun _ _ => False.elim)

theorem legible_post {p : Txn α} {post : α → Prop} (post' : α → Prop) (body : Maintains Legible p post)
    (known : ∀ m a m', p.Exec .exact m (.ok a) m' → post' a)
    : Maintains Legible p post' :=
  fun m a m' legible ran => ⟨(body m a m' legible ran).1, known m a m' ran⟩

theorem legible_nextCounter (c : Counter) : Maintains Legible (nextCounter c.kind) (fun _ => True) := by
  intro m id m' legible ran
  obtain ⟨_, rfl⟩ := exec_nextCounter ran
  exact ⟨legible.set ⟨id, rfl⟩, trivial⟩

theorem legible_internDict (d : Dict) (name : Str)
    : Maintains Legible (internDict d.fwdTag d.kind name) (fun _ => True) := by
  intro m id m' legible ran
  rcases exec_internDict ran with ⟨_, rfl⟩ | ⟨_, _, _, rfl⟩
  · exact ⟨legible, trivial⟩
  · exact ⟨((legible.set (κ := .counter (.dict d)) ⟨_, rfl⟩).set (κ := .forward d name) trivial).set
      (κ := .reverse d id) trivial, trivial⟩

theorem legible_internLabels (seen : List UInt32) (names : List Str)
    : Maintains Legible (internLabels seen names) (fun ids => ids.Nodup ∧ ∀ id ∈ ids, id ∉ seen) := by
  have kept : Maintains Legible (internLabels seen names) (fun _ => True) := by
    induction names generalizing seen with
    | nil => exact maintains_ret trivial
    | cons name rest ih =>
      simp only [internLabels, bind_eq, pure_eq]
      refine (legible_internDict .label name).bind (fun id _ => ?_)
      split
      · exact ih seen
      · exact (ih (id :: seen)).bind (fun _ _ => maintains_ret trivial)
  refine legible_post _ kept (fun m ids m' ran => ?_)
  obtain ⟨_, distinct, _, members⟩ := interned_internLabels ran
  exact ⟨distinct, fun id member => ((members id).mp member).1⟩

theorem legible_internEntries (skipNull : Bool) (entries : List (Str × Val)) (out : Props)
    : Maintains Legible (internEntries skipNull entries out) (fun _ => True) := by
  induction entries generalizing out with
  | nil => exact maintains_ret trivial
  | cons entry rest ih =>
    obtain ⟨name, value⟩ := entry
    simp only [internEntries, bind_eq]
    split
    · exact ih out
    · exact (legible_internDict .key name).bind (fun id _ => ih _)

variable {props : OrderedMap Str Val}

theorem legible_internProps (o : MapOrder) (valid : ValidProps props)
    : Maintains Legible (internProps o props) (fun p => RepresentableProps p ∧ NormalProps p) :=
  legible_post _ (legible_internEntries true _ _) (fun _ _ _ ran => props_internProps valid ran)

theorem Legible.marked (on : Bool) (legible : Legible s) {κ : Key} (fits : Fits κ [])
    : Legible (marked on s κ) := by
  cases on with
  | true => exact legible.set fits
  | false => exact legible.erase _

/-- Owner entries are node IDs. -/
theorem Legible.owned (on : Bool) (legible : Legible s) {l k : UInt32} {c : Scalar} (owned : Owned on s l k c n s')
    : Legible s' := by
  cases on with
  | true =>
    rcases owned with ⟨_, rfl⟩ | ⟨d, _, ⟨_, rfl⟩ | ⟨_, rfl⟩⟩
    · exact legible
    · exact legible.set (κ := .unique l k d) ⟨n, rfl⟩
    · exact legible
  | false =>
    rcases owned with ⟨_, rfl⟩ | ⟨d, _, ⟨_, rfl⟩ | ⟨_, rfl⟩⟩
    · exact legible
    · exact legible.erase _
    · exact legible

theorem legible_claimValue (l k : UInt32) (c : Scalar) (n : UInt64)
    : Maintains Legible (claimValue l k c n) (fun _ => True) :=
  fun _ _ _ legible ran => ⟨legible.owned true (exec_claimValue ran), trivial⟩

theorem legible_editEntry (on : Bool) (l k : UInt32) (v : Val) (n : UInt64)
    : Maintains Legible (editEntry on l k v n) (fun _ => True) := by
  intro m u m' legible ran
  have entered (c : Scalar) : Legible (marked on m (.prop l k c n)) := legible.marked on rfl
  rcases exec_editEntry on ran with ⟨_, rfl⟩ | ⟨c, _, _, ⟨_, rfl⟩ | ⟨_, owned⟩⟩
  · exact ⟨legible, trivial⟩
  · exact ⟨entered c, trivial⟩
  · exact ⟨(entered c).owned on owned, trivial⟩

variable {r : NodeRecord}

theorem legible_putNodeRecord (n : UInt64) (good : Recordable r)
    : Maintains Legible (putNodeRecord n r) (fun _ => True) := by
  simp only [putNodeRecord, bind_eq]
  refine (maintains_ofExcept (fun b => encodeNode r = .ok b) (fun _ => id)).bind (fun b encoded => ?_)
  exact legible_write (κ := .node n) ⟨r, good, encoded⟩

theorem legible_mark (on : Bool) {κ : Key} (fits : Fits κ [])
    : Maintains Legible (mark on κ) (fun _ => True) :=
  fun _ _ _ legible ran => ⟨exec_mark.mp ran ▸ legible.marked on fits, trivial⟩

theorem legible_editNodeIndexes (on : Bool) (o : MapOrder) (n : UInt64) (r : NodeRecord)
    : Maintains Legible (editNodeIndexes on o n r) (fun _ => True) := by
  rw [editNodeIndexes_eq]
  refine .each (fun row _ => (legible_mark on (κ := .label row.1 n) trivial).bind (fun _ _ => ?_))
  exact .each (fun e _ => legible_editEntry on row.1 e.1 e.2 n)

/-- A record in the form it is read back: it can be written again, which changes nothing. -/
structure Settled (r : NodeRecord) : Prop extends Recordable r where
  encodable : EncodableProps r.props
  stable : recorded r = r

theorem settled_recorded (good : Recordable r) (encodable : EncodableProps r.props)
    : Settled (recorded r) where
  distinct := (perm_insertionSort _ _).nodup_iff.mpr good.distinct
  valid := storableProps_representable (.recProps encodable)
  normal := good.normal.recProps
  encodable := (StorableProps.recProps encodable).encodable
  stable := by
    rw [recorded, NodeRecord.mk.injEq]
    refine ⟨?_, (StorableProps.recProps encodable).settled⟩
    exact (pairwise_insertionSort (· ≤ ·) r.labels).insertionSort_eq

/-- A record that is read is the recorded form of one that was written. -/
theorem Legible.read (legible : Legible s) (found : nodeAt s n = some r)
    : ∃ r' b, Recordable r' ∧ EncodableProps r'.props ∧ cell s (.node n) = some b ∧ encodeNode r' = .ok b
      ∧ recorded r' = r := by
  obtain ⟨b, held, decoded⟩ := Option.bind_eq_some_iff.mp found
  obtain ⟨r', good, encoded⟩ := legible (.node n) b held
  have encodable := encodable_of_encodeNode good.valid encoded
  obtain ⟨b', encoded', read⟩ := decodeNode_encodeNode good.distinct encodable
  obtain rfl : b = b' := Except.ok.inj (encoded.symm.trans encoded')
  rw [read] at decoded
  exact ⟨r', b, good, encodable, held, encoded, Option.some.inj decoded⟩

/-- The records of a legible store are settled. -/
theorem Legible.settled (legible : Legible s) (found : nodeAt s n = some r) : Settled r := by
  obtain ⟨r', b, good, encodable, _, _, rfl⟩ := legible.read found
  exact settled_recorded good encodable

theorem legible_getNode (n : UInt64)
    : Maintains Legible (getNode n) (fun node => Settled node.toNodeRecord) := by
  intro m node m' legible ran
  obtain ⟨found, rfl⟩ := exec_getNode ran
  exact ⟨legible, legible.settled found⟩

theorem legible_createNode (o : MapOrder) (labels : List Str) (valid : ValidProps props)
    : Maintains Legible (createNode o labels props) (fun _ => True) := by
  simp only [createNode, bind_eq, pure_eq]
  refine (legible_internLabels [] labels).bind (fun ids fresh => ?_)
  refine (legible_internProps (o.sub 0) valid).bind (fun p stored => ?_)
  refine (legible_nextCounter .node).bind (fun id _ => ?_)
  refine (legible_putNodeRecord id (r := ⟨ids, p⟩) ⟨fresh.1, stored.1, stored.2⟩).bind (fun _ _ => ?_)
  exact (legible_editNodeIndexes true (o.sub 1) id ⟨ids, p⟩).bind (fun _ _ => maintains_ret trivial)

theorem legible_createEdge (o : MapOrder) (typ : Str) (src dst : UInt64) (valid : ValidProps props)
    : Maintains Legible (createEdge o typ src dst props) (fun _ => True) := by
  simp only [createEdge, bind_eq, pure_eq]
  refine (legible_reads (.ofReads (reads_endpoint "src" src))).bind (fun _ _ => ?_)
  refine (legible_reads (.ofReads (reads_endpoint "dst" dst))).bind (fun _ _ => ?_)
  refine (legible_internDict .type typ).bind (fun t _ => ?_)
  refine (legible_internProps (o.sub 0) valid).bind (fun p _ => ?_)
  refine (legible_nextCounter .edge).bind (fun id _ => ?_)
  refine (maintains_ofExcept (fun _ => True) (fun _ _ => trivial)).bind (fun b _ => ?_)
  refine (legible_write (κ := .edge id) trivial).bind (fun _ _ => ?_)
  refine (legible_write (κ := .out src t dst id) trivial).bind (fun _ _ => ?_)
  refine (legible_write (κ := .inn dst t src id) trivial).bind (fun _ _ => ?_)
  refine (Maintains.each (fun e _ => ?_)).bind (fun _ _ => maintains_ret trivial)
  refine legible_within (within_editRelEntry true t e.1 e.2 id) (fun κ b inside => ?_)
  cases κ <;> simp_all [RelEntryKey, Fits]

theorem legible_setProperty (n : UInt64) (key : Str) {value : Val} (valid : representable value = true)
    : Maintains Legible (setProperty n key value) (fun _ => True) := by
  simp only [setProperty, bind_eq]
  refine (legible_getNode n).bind (fun node good => ?_)
  refine (legible_internDict .key key).bind (fun id _ => ?_)
  refine (Maintains.each (fun l _ => ?_)).bind (fun _ _ => legible_putNodeRecord n
    (good.toRecordable.update id ⟨representable_normalize valid, normalize_normalize value⟩))
  cases node.props.get id with
  | none => exact legible_editEntry true l id _ n
  | some v => exact (legible_editEntry false l id v n).bind (fun _ _ => legible_editEntry true l id _ n)

theorem legible_removeProperty (n : UInt64) (key : Str)
    : Maintains Legible (removeProperty n key) (fun _ => True) := by
  simp only [removeProperty, bind_eq, pure_eq]
  refine (legible_getNode n).bind (fun node good => ?_)
  refine (legible_reads (.ofReads (reads_lookupDict _ key))).bind (fun known _ => ?_)
  cases known with
  | none => exact maintains_ret trivial
  | some id =>
    cases held : node.props.get id with
    | none =>
      simp only [held]
      exact maintains_ret trivial
    | some old =>
      simp only [held]
      refine (Maintains.each (fun l _ => legible_editEntry false l id old n)).bind (fun _ _ => ?_)
      exact legible_putNodeRecord n (good.toRecordable.delete id)

theorem legible_addLabels (o : MapOrder) (n : UInt64) (labels : List Str)
    : Maintains Legible (addLabels o n labels) (fun _ => True) := by
  simp only [addLabels, bind_eq, pure_eq]
  split
  · exact maintains_ret trivial
  refine (legible_getNode n).bind (fun node good => ?_)
  refine (legible_internLabels node.labels labels).bind (fun added fresh => ?_)
  split
  · exact maintains_ret trivial
  refine (legible_editNodeIndexes true o n _).bind (fun _ _ => legible_putNodeRecord n ?_)
  refine ⟨nodup_append.mpr ⟨good.distinct, fresh.1, ?_⟩, good.valid, good.normal⟩
  rintro l old l' new rfl
  exact fresh.2 l new old

theorem legible_removeLabels (o : MapOrder) (n : UInt64) (labels : List Str)
    : Maintains Legible (removeLabels o n labels) (fun _ => True) := by
  simp only [removeLabels, bind_eq, pure_eq]
  split
  · exact maintains_ret trivial
  refine (legible_getNode n).bind (fun node good => ?_)
  refine (legible_reads (.ofReads (reads_lookupLabels labels))).bind (fun toRemove _ => ?_)
  split
  · exact maintains_ret trivial
  refine (legible_editNodeIndexes false o n _).bind (fun _ _ => legible_putNodeRecord n ?_)
  exact ⟨good.distinct.filter _, good.valid, good.normal⟩

theorem solid_nonNull {entries : List (UInt32 × Val)}
    (given : ∀ e ∈ entries, representable e.2 = true ∧ normalize e.2 = e.2)
    : Solid (nonNull entries) := by
  have loop (p : Props) (solid : Solid p) : Solid (entries.foldl
      (fun m e => if isNull e.2 then m else m.set e.1 e.2) p) := by
    induction entries generalizing p with
    | nil => exact solid
    | cons e rest ih =>
      refine ih (fun e member => given e (by simp [member])) _ ?_
      have updated := solid.update e.1 (given e (by simp))
      cases null : isNull e.2 with
      | true => simpa [null] using solid
      | false => simpa [null] using updated
  exact loop .empty (fun k v held => by simp at held)

theorem legible_mergeEntries (n : UInt64) (labels : List UInt32) {entries : List (UInt32 × Val)}
    {p : Props} (solid : Solid p)
    (given : ∀ e ∈ entries, representable e.2 = true ∧ normalize e.2 = e.2)
    : Maintains Legible (mergeEntries n labels entries p) Solid := by
  induction entries generalizing p with
  | nil => exact maintains_ret solid
  | cons e rest ih =>
    have after := ih (solid.update e.1 (given e (by simp))) (fun e member => given e (by simp [member]))
    simp only [mergeEntries, bind_eq]
    cases p.get e.1 with
    | none => exact after
    | some old =>
      simp only
      split
      · exact (Maintains.each (fun l _ => legible_editEntry false l e.1 old n)).bind (fun _ _ => after)
      · exact after

theorem legible_setNodeProperties (o : MapOrder) (n : UInt64) (replace : Bool)
    (valid : ValidProps props)
    : Maintains Legible (setNodeProperties o n props replace) (fun _ => True) := by
  simp only [setNodeProperties, bind_eq, pure_eq]
  refine (legible_getNode n).bind (fun node good => ?_)
  refine (legible_post (fun desired : Props => ∀ k v, desired.get k = some v
    → representable v = true ∧ normalize v = v) (legible_internEntries false _ _) ?_).bind
    (fun desired given => ?_)
  · intro m desired m' ran k v held
    obtain ⟨_, origin, _⟩ := interned_internEntries ran
    rcases origin k v held with before | ⟨e, member, _, _, rfl⟩
    · simp at before
    · exact ⟨representable_normalize (valid e (MapOrder.mem_range.mp member)), normalize_normalize e.2⟩
  · have listed (o : MapOrder) (e : UInt32 × Val) (member : e ∈ o.range desired.entries)
        : representable e.2 = true ∧ normalize e.2 = e.2 :=
      given e.1 e.2 (OrderedMap.get_eq_some_iff.mpr (MapOrder.mem_range.mp member))
    have stored (updated : Props) (solid : Solid updated) : Maintains Legible
        ((Program.each ((o.sub 4).range updated.entries) (fun e =>
          Program.each node.labels (fun l => putPropEntry l e.1 e.2 n))).bind
          (fun _ => putNodeRecord n ⟨node.labels, updated⟩)) (fun _ => True) :=
      (Maintains.each (fun e _ => Maintains.each (fun l _ => legible_editEntry true l e.1 e.2 n))).bind
        (fun _ _ => legible_putNodeRecord n (solid.recordable good.distinct))
    split
    · refine (Maintains.each (fun e _ => ?_)).bind (fun _ _ => stored _ (solid_nonNull (listed _)))
      split
      · exact maintains_ret trivial
      · exact .each (fun l _ => legible_editEntry false l e.1 e.2 n)
    · exact (legible_mergeEntries n node.labels good.toRecordable.solid (listed _)).bind stored

theorem legible_deleteEdge (o : MapOrder) (e : UInt64)
    : Maintains Legible (deleteEdge o e) (fun _ => True) := by
  refine legible_within (within_deleteEdge o e) (fun κ b inside => ?_)
  cases κ <;> simp_all [OfEdge, Fits]

theorem legible_deleteNode (o : MapOrder) (n : UInt64)
    : Maintains Legible (deleteNode o n) (fun _ => True) := by
  simp only [deleteNode, bind_eq, throw_eq]
  refine (legible_getNode n).bind (fun node _ => ?_)
  refine (legible_reads (.ofReads (reads_hasIncidentEdges n))).bind (fun incident _ => ?_)
  split
  · exact (maintains_fail (fun _ => True) _).bind
      (fun _ _ => (legible_editNodeIndexes false o n _).bind (fun _ _ => legible_erase _))
  · exact (legible_editNodeIndexes false o n _).bind (fun _ _ => legible_erase _)

theorem legible_detachDeleteNode (o : MapOrder) (n : UInt64)
    : Maintains Legible (detachDeleteNode o n) (fun _ => True) := by
  simp only [detachDeleteNode, bind_eq]
  refine (legible_getNode n).bind (fun _ _ => ?_)
  refine (legible_reads (.ofReads (reads_outEdges n 0))).bind (fun out _ => ?_)
  refine (legible_reads (.ofReads (reads_inEdges n 0))).bind (fun inc _ => ?_)
  exact (Maintains.each (fun e _ => legible_deleteEdge _ e.1)).bind
    (fun _ _ => legible_deleteNode (o.sub 2) n)

theorem legible_deletePrefix (stem : Bytes) : Maintains Legible (deletePrefix stem) (fun _ => True) := by
  simp only [deletePrefix, bind_eq]
  exact (legible_reads (.ofReads (reads_scan stem))).bind
    (fun found _ => Maintains.each (fun e _ => legible_erase e.1))

theorem legible_forEachLabelValue (l k : UInt32) {fn : UInt64 → Scalar → Txn Unit}
    (body : ∀ n c, Maintains Legible (fn n c) (fun _ => True))
    : Maintains Legible (forEachLabelValue l k fn) (fun _ => True) := by
  simp only [forEachLabelValue, bind_eq, pure_eq]
  refine (legible_reads (.ofReads (reads_nodesByLabel l))).bind (fun ids _ => Maintains.each (fun id _ => ?_))
  refine (legible_getNode id).bind (fun node _ => ?_)
  split
  · exact body id _
  · exact maintains_ret trivial

theorem legible_buildIndex (l k : UInt32) (name : Str)
    : Maintains Legible (buildIndex l k name) (fun _ => True) := by
  simp only [buildIndex, addNamedIndex, bind_eq]
  refine (legible_write (κ := .index l k) trivial).bind (fun _ _ => ?_)
  refine legible_forEachLabelValue l k (fun n c => ?_)
  rw [Key.propKey_eq]
  exact legible_write (κ := .prop l k c n) rfl

theorem legible_dropIndexEntries (l k : UInt32)
    : Maintains Legible (dropIndexEntries l k) (fun _ => True) := by
  simp only [dropIndexEntries, removeIndex, bind_eq]
  exact (legible_deletePrefix _).bind (fun _ _ => legible_erase _)

theorem legible_requireFormat (v : UInt32) : Maintains Legible (requireFormat v) (fun _ => True) := by
  refine legible_within (within_requireFormat v) ?_
  rintro _ b rfl
  trivial

theorem legible_addUniqueConstraint (l k : UInt32) (name : Str)
    : Maintains Legible (addUniqueConstraint l k name) (fun _ => True) := by
  have constrained (owns : Bool) : Maintains Legible
      (requireUniqueFormat.bind (fun _ => (addConstraint ⟨l, k, name, owns⟩).bind (fun _ =>
        forEachLabelValue l k (fun n c => claimValue l k c n)))) (fun _ => True) := by
    refine (legible_requireFormat _).bind (fun _ _ => ?_)
    refine (legible_write (κ := .constraint l k) (by simp [Fits])).bind (fun _ _ => ?_)
    exact legible_forEachLabelValue l k (fun n c => legible_claimValue l k c n)
  simp only [addUniqueConstraint, bind_eq]
  refine (legible_reads (.ofReads (reads_hasIndex l k))).bind (fun has _ => ?_)
  split
  · exact (legible_buildIndex l k []).bind (fun _ _ => constrained _)
  · exact constrained _

theorem legible_dropUniqueConstraint (l k : UInt32)
    : Maintains Legible (dropUniqueConstraint l k) (fun _ => True) := by
  simp only [dropUniqueConstraint, removeConstraint, bind_eq, pure_eq]
  refine (legible_reads (.ofReads (reads_getConstraint l k))).bind (fun found _ => ?_)
  cases found with
  | none => exact maintains_ret trivial
  | some d =>
    refine (legible_deletePrefix _).bind (fun _ _ => (legible_erase _).bind (fun _ _ => ?_))
    split
    · exact legible_dropIndexEntries l k
    · exact maintains_ret trivial

theorem legible_buildRelIndex (t k : UInt32) (name : Str)
    : Maintains Legible (buildRelIndex t k name) (fun _ => True) := by
  refine legible_within (within_buildRelIndex t k name) (fun κ b inside => ?_)
  cases κ <;> simp_all [RelPairOrFormat, OfRelPair, Fits]

theorem legible_dropRelIndexEntries (t k : UInt32)
    : Maintains Legible (dropRelIndexEntries t k) (fun _ => True) := by
  refine legible_within (within_dropRelIndexEntries t k) (fun κ b inside => ?_)
  cases κ <;> simp_all [OfRelPair, Fits]

theorem legible_run (op : Op) (o : MapOrder) : Maintains Legible (op.run o) (fun _ => True) := by
  have done {p : Txn Unit} (body : Maintains Legible p (fun _ => True))
      : Maintains Legible (p.bind (fun _ => ret Outcome.done)) (fun _ => True) :=
    body.bind (fun _ _ => maintains_ret trivial)
  cases op with
  | createNode labels props =>
    exact (legible_createNode o labels props.property).bind (fun _ _ => maintains_ret trivial)
  | createEdge typ src dst props =>
    exact (legible_createEdge o typ src dst props.property).bind (fun _ _ => maintains_ret trivial)
  | setProperty n key value => exact done (legible_setProperty n key value.property)
  | removeProperty n key => exact done (legible_removeProperty n key)
  | setNodeProperties n props replace =>
    exact done (legible_setNodeProperties o n replace props.property)
  | addLabels n labels => exact done (legible_addLabels o n labels)
  | removeLabels n labels => exact done (legible_removeLabels o n labels)
  | deleteEdge e => exact done (legible_deleteEdge o e)
  | deleteNode n => exact done (legible_deleteNode o n)
  | detachDeleteNode n => exact done (legible_detachDeleteNode o n)
  | buildIndex l k name => exact done (legible_buildIndex l k name)
  | dropIndexEntries l k => exact done (legible_dropIndexEntries l k)
  | buildRelIndex t k name => exact done (legible_buildRelIndex t k name)
  | dropRelIndexEntries t k => exact done (legible_dropRelIndexEntries t k)
  | addUniqueConstraint l k name => exact done (legible_addUniqueConstraint l k name)
  | dropUniqueConstraint l k => exact done (legible_dropUniqueConstraint l k)

/-- Every state reached is legible, however many IDs were handed out. -/
theorem Reached.legible {allowed : Store → Op → Prop} {history : History}
    (reached : Reached allowed history s)
    : Tallied history s ∧ Legible s :=
  Reached.induction (P := fun history s => Tallied history s ∧ Legible s)
    (fun _ s op o r s' _ ran both => ⟨both.1.step (advance_run ran), (legible_run op o s r s' both.2 ran).1⟩)
    reached ⟨.empty, .empty⟩

end Intreccio.Graph
