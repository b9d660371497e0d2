import Intreccio.Graph.Effects

/-! Index consistency: the derived keys of a store are exactly those its records imply.
The laws are stated for one node, one edge and one index at a time, so that an operation only
has to restore those of what it touches; its frame keeps the others.
-/

namespace Intreccio.Graph

open Kv Words Codec

/-- The record of a node, if there is one that decodes. -/
def nodeAt (s : Store) (n : UInt64) : Option NodeRecord :=
  (cell s (.node n)).bind (fun b => (decodeNode b).toOption)

def edgeAt (s : Store) (e : UInt64) : Option EdgeRecord :=
  (cell s (.edge e)).bind (fun b => (decodeEdge b).toOption)

theorem decoded_iff {α : Type} {decode : Bytes → Except Err α} {held : Option Bytes} {r : α}
    : held.bind (fun b => (decode b).toOption) = some r ↔ ∃ b, held = some b ∧ decode b = .ok r := by
  rw [Option.bind_eq_some_iff]
  refine exists_congr (fun b => and_congr_right (fun _ => ?_))
  cases decode b <;> simp [Except.toOption]

/-- The node has the label and, at the key, an indexable value. -/
def Carries (s : Store) (n : UInt64) (l k : UInt32) (c : Scalar) : Prop :=
  ∃ r, nodeAt s n = some r ∧ l ∈ r.labels ∧ r.props.get k = some c.toVal

def Indexed (s : Store) (l k : UInt32) : Prop := cell s (.index l k) ≠ none

def Constrained (s : Store) (l k : UInt32) : Prop := cell s (.constraint l k) ≠ none

def RelIndexed (s : Store) (t k : UInt32) : Prop := cell s (.relIndex t k) ≠ none

/-- The form the operations give to properties: no top-level Go `int`, and no null. -/
structure NormalProps (p : OrderedMap UInt32 Val) : Prop where
  normal : ∀ k v, p.get k = some v → normalize v = v
  present : ∀ k, p.get k ≠ some .null

/-- The node's record can be read, names each label once and holds normal properties, and
the node has the `l` keys of its labels.
-/
structure NodeAligned (s : Store) (n : UInt64) : Prop where
  readable : ∀ b, cell s (.node n) = some b → ∃ r, decodeNode b = .ok r
  distinct : ∀ r, nodeAt s n = some r → r.labels.Nodup
  storable : ∀ r, nodeAt s n = some r → StorableProps r.props
  normal : ∀ r, nodeAt s n = some r → NormalProps r.props
  labels : ∀ l, cell s (.label l n) ≠ none ↔ ∃ r, nodeAt s n = some r ∧ l ∈ r.labels

/-- Which values the laws of node indexes speak about: all of them, or all but null. -/
inductive Coverage where
  | all
  | present
deriving DecidableEq

def Coverage.covers : Coverage → Scalar → Prop
  | .all, _ => True
  | .present, c => c ≠ .null

variable {cov : Coverage}

/-- A value and its canonical form are covered alike. -/
theorem Coverage.covers_unique {c d : Scalar} (canon : uniqueValue c = some d)
    : cov.covers d ↔ cov.covers c := by
  cases cov with
  | all => exact Iff.rfl
  | present =>
    cases c with
    | float f =>
      simp only [uniqueValue] at canon
      split at canon
      · cases canon
      · split at canon <;> simp [covers, ← Option.some.inj canon]
    | _ => simp [covers, ← Option.some.inj canon]

/-- Which values each node is entered with, by label and property key. -/
abbrev Bearing := UInt64 → UInt32 → UInt32 → Scalar → Prop

/-- The `p` and `u` keys under one pair are those of the values borne; under a constraint the
owner of a canonical form is the node that bears it.
-/
structure PairAligned (cov : Coverage) (s : Store) (bears : Bearing) (l k : UInt32) : Prop where
  props
    : ∀ c n, cov.covers c
        → (cell s (.prop l k c n) ≠ none ↔ Indexed s l k ∧ bears n l k c)
  owners
    : ∀ d b, cov.covers d
        → (cell s (.unique l k d) = some b
          ↔ Constrained s l k
            ∧ ∃ n c, bears n l k c ∧ uniqueValue c = some d ∧ b = uint64Bytes n)
  backed : Constrained s l k → Indexed s l k

/-- All node indexes and constraints are aligned. -/
def Entered (cov : Coverage) (s : Store) (bears : Bearing) : Prop :=
  ∀ l k, PairAligned cov s bears l k

/-- The edge's record can be read and joins existing nodes, and the edge has the `o` and `i`
keys and, for registered indexes, the `r` keys of its record.
-/
structure EdgeAligned (s : Store) (e : UInt64) : Prop where
  readable : ∀ b, cell s (.edge e) = some b → ∃ r, decodeEdge b = .ok r
  storable : ∀ r, edgeAt s e = some r → StorableProps r.props
  ends : ∀ r, edgeAt s e = some r → cell s (.node r.src) ≠ none ∧ cell s (.node r.dst) ≠ none
  outs
    : ∀ src t dst, cell s (.out src t dst e) ≠ none
        ↔ ∃ r, edgeAt s e = some r ∧ r.src = src ∧ r.type = t ∧ r.dst = dst
  ins
    : ∀ dst t src, cell s (.inn dst t src e) ≠ none
        ↔ ∃ r, edgeAt s e = some r ∧ r.src = src ∧ r.type = t ∧ r.dst = dst
  rels
    : ∀ t k c, cell s (.relProp t k c e) ≠ none
        ↔ RelIndexed s t k
          ∧ ∃ r, edgeAt s e = some r ∧ r.type = t ∧ r.props.get k = some c.toVal

structure NodeLaws (cov : Coverage) (s : Store) : Prop where
  keyed : WellKeyed s
  aligned : ∀ n, NodeAligned s n
  entered : Entered cov s (Carries s)

/-- A store whose derived keys follow its records. -/
structure Consistent (cov : Coverage) (s : Store) : Prop where
  nodes : NodeLaws cov s
  edges : ∀ e, EdgeAligned s e

@[simp] theorem nodeAt_empty (n : UInt64) : nodeAt .empty n = none := rfl

@[simp] theorem edgeAt_empty (e : UInt64) : edgeAt .empty e = none := rfl

theorem NodeLaws.empty (cov : Coverage) : NodeLaws cov .empty where
  keyed := .empty
  aligned := fun _ => ⟨by simp, by simp, by simp, by simp, by simp⟩
  entered := fun _ _ => ⟨by simp [Indexed], by simp [Constrained], by simp [Constrained]⟩

theorem Consistent.empty (cov : Coverage) : Consistent cov .empty where
  nodes := .empty cov
  edges := fun _ => ⟨by simp, by simp, by simp, by simp, by simp, by simp [RelIndexed]⟩

/-- Under a constraint no two nodes hold values with one canonical form.
Witness: both nodes would be the one the owner key holds.
-/
theorem NodeLaws.unique {s : Store} (laws : NodeLaws cov s) {l k : UInt32} {m n : UInt64}
    {a b d : Scalar} (constrained : Constrained s l k) (left : Carries s m l k a)
    (right : Carries s n l k b) (canonLeft : uniqueValue a = some d)
    (canonRight : uniqueValue b = some d)
    : m = n := by
  -- A record holds no null, so the value is covered.
  have covered : cov.covers d := by
    cases cov with
    | all => trivial
    | present =>
      obtain ⟨r, found, _, held⟩ := left
      have value : Coverage.present.covers a := by
        rintro rfl
        exact ((laws.aligned m).normal r found).present k held
      exact (Coverage.covers_unique canonLeft).mpr value
  have first := ((laws.entered l k).owners d _ covered).mpr
    ⟨constrained, m, a, left, canonLeft, rfl⟩
  have second := ((laws.entered l k).owners d _ covered).mpr
    ⟨constrained, n, b, right, canonRight, rfl⟩
  exact uint64Bytes_inj.mp (Option.some.inj (first.symm.trans second))

section Frames

variable {s t : Store}

theorem nodeAt_congr {n : UInt64} (same : cell t (.node n) = cell s (.node n)) : nodeAt t n = nodeAt s n := by
  simp only [nodeAt, same]

theorem edgeAt_congr {e : UInt64} (same : cell t (.edge e) = cell s (.edge e)) : edgeAt t e = edgeAt s e := by
  simp only [edgeAt, same]

theorem Carries.congr {n : UInt64} (same : cell t (.node n) = cell s (.node n)) {l k : UInt32}
    {c : Scalar}
    : Carries t n l k c ↔ Carries s n l k c := by
  simp only [Carries, nodeAt_congr same]

theorem NodeAligned.congr {n : UInt64} (aligned : NodeAligned s n)
    (node : cell t (.node n) = cell s (.node n))
    (label : ∀ l, cell t (.label l n) = cell s (.label l n))
    : NodeAligned t n := by
  have record := nodeAt_congr node
  refine ⟨fun b present => ?_, fun r found => ?_, fun r found => ?_, fun r found => ?_, fun l => ?_⟩
  · exact aligned.readable b (node.symm.trans present)
  · exact aligned.distinct r (record.symm.trans found)
  · exact aligned.storable r (record.symm.trans found)
  · exact aligned.normal r (record.symm.trans found)
  · rw [label, record]
    exact aligned.labels l

/-- The keys of one node index and of the constraint on it. -/
def OfPair (l k : UInt32) : Key → Prop
  | .index l' k' | .constraint l' k' | .prop l' k' _ _ | .unique l' k' _ => l' = l ∧ k' = k
  | _ => False

theorem PairAligned.congr {bears bears' : Bearing} {l k : UInt32}
    (aligned : PairAligned cov s bears l k) (agree : ∀ κ, OfPair l k κ → cell t κ = cell s κ)
    (same : ∀ n c, cov.covers c → (bears' n l k c ↔ bears n l k c))
    : PairAligned cov t bears' l k := by
  have index : cell t (.index l k) = cell s (.index l k) := agree _ ⟨rfl, rfl⟩
  have constraint : cell t (.constraint l k) = cell s (.constraint l k) := agree _ ⟨rfl, rfl⟩
  refine ⟨fun c n covered => ?_, fun d b covered => ?_, ?_⟩
  · rw [agree (.prop l k c n) ⟨rfl, rfl⟩, Indexed, index, same n c covered]
    exact aligned.props c n covered
  · rw [agree (.unique l k d) ⟨rfl, rfl⟩, Constrained, constraint, aligned.owners d b covered]
    refine and_congr_right (fun _ => exists_congr (fun n => exists_congr (fun c => ?_)))
    refine and_congr_left (fun canon => (same n c ?_).symm)
    exact (Coverage.covers_unique canon.1).mp covered
  · rw [Constrained, constraint, Indexed, index]
    exact aligned.backed

theorem Entered.congr {bears bears' : Bearing} (entered : Entered cov s bears)
    (agree : ∀ l k κ, OfPair l k κ → cell t κ = cell s κ)
    (same : ∀ n l k c, cov.covers c → (bears' n l k c ↔ bears n l k c))
    : Entered cov t bears' :=
  fun l k => (entered l k).congr (agree l k) (fun n c => same n l k c)

theorem EdgeAligned.congr {e : UInt64} (aligned : EdgeAligned s e)
    (agree : ∀ κ, OfEdge e κ → cell t κ = cell s κ)
    (registry : ∀ t' k, cell t (.relIndex t' k) = cell s (.relIndex t' k))
    (nodes : ∀ n, cell s (.node n) ≠ none → cell t (.node n) ≠ none)
    : EdgeAligned t e := by
  have edge : cell t (.edge e) = cell s (.edge e) := agree _ rfl
  have record := edgeAt_congr edge
  refine ⟨fun b present => ?_, fun r found => ?_, fun r found => ?_, fun src t' dst => ?_,
    fun dst t' src => ?_, fun t' k c => ?_⟩
  · exact aligned.readable b (edge.symm.trans present)
  · exact aligned.storable r (record.symm.trans found)
  · obtain ⟨source, target⟩ := aligned.ends r (record.symm.trans found)
    exact ⟨nodes r.src source, nodes r.dst target⟩
  · rw [agree (.out src t' dst e) rfl, record]
    exact aligned.outs src t' dst
  · rw [agree (.inn dst t' src e) rfl, record]
    exact aligned.ins dst t' src
  · rw [agree (.relProp t' k c e) rfl, record, RelIndexed, registry]
    exact aligned.rels t' k c

def NodeSide : Key → Prop
  | .node _ | .label _ _ | .prop _ _ _ _ | .unique _ _ _ | .index _ _ | .constraint _ _ => True
  | _ => False

theorem NodeLaws.congr (laws : NodeLaws cov s) (keyed : WellKeyed t)
    (agree : ∀ κ, NodeSide κ → cell t κ = cell s κ)
    : NodeLaws cov t := by
  have node (n : UInt64) : cell t (.node n) = cell s (.node n) := agree _ trivial
  refine ⟨keyed, fun n => (laws.aligned n).congr (node n) (fun l => agree _ trivial), ?_⟩
  refine laws.entered.congr (fun l k κ inside => agree κ ?_)
    (fun n l k c _ => Carries.congr (node n))
  cases κ <;> simp_all [OfPair, NodeSide]

end Frames

/-- Only dictionaries, counters or the format marker changed. -/
abbrev Catalogued := Framed CatalogKey

theorem Framed.nodeLaws {s s' : Store} (changed : Catalogued s s') (laws : NodeLaws cov s)
    : NodeLaws cov s' := by
  refine laws.congr (changed.keyed laws.keyed) (fun κ side => changed.frame κ ?_)
  cases κ <;> simp_all [NodeSide, CatalogKey]

theorem Framed.consistent {s s' : Store} (changed : Catalogued s s') (consistent : Consistent cov s)
    : Consistent cov s' := by
  refine ⟨changed.nodeLaws consistent.nodes, fun e => (consistent.edges e).congr ?_ ?_ ?_⟩
  · intro κ inside
    exact changed.frame κ (by cases κ <;> simp_all [OfEdge, CatalogKey])
  · exact fun t k => changed.frame (.relIndex t k) id
  · intro n present
    rwa [changed.frame (.node n) id]

end Intreccio.Graph
