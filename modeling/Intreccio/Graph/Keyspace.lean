import Intreccio.Graph.Indexes

/-! The keyspace as a type: which table a key belongs to and what it says.
Distinct keys have distinct bytes, so effects on the store can be told apart by their keys.
-/

namespace Intreccio

open Kv Words Codec Catalog OrderedMap List

inductive Dict where
  | label
  | type
  | key
deriving DecidableEq

namespace Dict

def fwdTag : Dict → UInt8
  | label => tagLabelFwd
  | type => tagTypeFwd
  | key => tagKeyFwd

def kind : Dict → UInt8
  | label => kindLabel
  | type => kindType
  | key => kindKey

end Dict

inductive Counter where
  | node
  | edge
  | dict (d : Dict)
deriving DecidableEq

def Counter.kind : Counter → UInt8
  | node => kindNode
  | edge => kindEdge
  | dict d => d.kind

/-- The keys the catalog and the graph layer write. -/
inductive Key where
  | node (n : UInt64)
  | edge (e : UInt64)
  | out (src : UInt64) (t : UInt32) (dst e : UInt64)
  | inn (dst : UInt64) (t : UInt32) (src e : UInt64)
  | label (l : UInt32) (n : UInt64)
  | prop (l k : UInt32) (c : Scalar) (n : UInt64)
  | unique (l k : UInt32) (c : Scalar)
  | relProp (t k : UInt32) (c : Scalar) (e : UInt64)
  | counter (c : Counter)
  | forward (d : Dict) (name : Str)
  | reverse (d : Dict) (id : UInt32)
  | index (l k : UInt32)
  | constraint (l k : UInt32)
  | relIndex (t k : UInt32)
  | format
deriving DecidableEq

namespace Key

def tag : Key → UInt8
  | node _ => KeyNode
  | edge _ => KeyEdge
  | out _ _ _ _ => KeyOut
  | inn _ _ _ _ => KeyIn
  | label _ _ => KeyLabel
  | prop _ _ _ _ => KeyProp
  | unique _ _ _ => KeyUnique
  | relProp _ _ _ _ => KeyRelProp
  | counter _ => tagCounter
  | forward d _ => d.fwdTag
  | reverse _ _ => tagReverse
  | index _ _ => tagIndexReg
  | constraint _ _ => tagConstraint
  | relIndex _ _ => tagRelIndex
  | format => tagFormat

def body : Key → Bytes
  | node n => uint64Bytes n
  | edge e => uint64Bytes e
  | out src t dst e => uint64Bytes src ++ uint32Bytes t ++ uint64Bytes dst ++ uint64Bytes e
  | inn dst t src e => uint64Bytes dst ++ uint32Bytes t ++ uint64Bytes src ++ uint64Bytes e
  | label l n => uint32Bytes l ++ uint64Bytes n
  | prop l k c n => uint32Bytes l ++ uint32Bytes k ++ scalarBytes c ++ uint64Bytes n
  | unique l k c => uint32Bytes l ++ uint32Bytes k ++ scalarBytes c
  | relProp t k c e => uint32Bytes t ++ uint32Bytes k ++ scalarBytes c ++ uint64Bytes e
  | counter c => [c.kind]
  | forward _ name => name
  | reverse d id => d.kind :: uint32Bytes id
  | index l k => uint32Bytes l ++ uint32Bytes k
  | constraint l k => uint32Bytes l ++ uint32Bytes k
  | relIndex t k => uint32Bytes t ++ uint32Bytes k
  | format => []

def bytes (κ : Key) : Bytes := κ.tag :: κ.body

theorem dictKind_inj {a b : Dict} : a.kind = b.kind ↔ a = b := by
  cases a <;> cases b <;> decide

theorem counterKind_inj {a b : Counter} : a.kind = b.kind ↔ a = b := by
  cases a with
  | node | edge =>
    cases b with
    | node | edge => decide
    | dict d => cases d <;> decide
  | dict c =>
    cases b with
    | node | edge => cases c <;> decide
    | dict d => cases c <;> cases d <;> decide

theorem append64_inj {a b : UInt64} {x y : Bytes}
    : uint64Bytes a ++ x = uint64Bytes b ++ y ↔ a = b ∧ x = y := by
  constructor
  · intro same
    obtain ⟨word, rest⟩ := append_inj same (by simp)
    exact ⟨uint64Bytes_inj.mp word, rest⟩
  · rintro ⟨rfl, rfl⟩
    rfl

theorem append32_inj {a b : UInt32} {x y : Bytes}
    : uint32Bytes a ++ x = uint32Bytes b ++ y ↔ a = b ∧ x = y := by
  constructor
  · intro same
    obtain ⟨word, rest⟩ := append_inj same (by simp)
    exact ⟨uint32Bytes_inj.mp word, rest⟩
  · rintro ⟨rfl, rfl⟩
    rfl

def table : Key → Nat
  | node _ => 0
  | edge _ => 1
  | out _ _ _ _ => 2
  | inn _ _ _ _ => 3
  | label _ _ => 4
  | prop _ _ _ _ => 5
  | unique _ _ _ => 6
  | relProp _ _ _ _ => 7
  | counter _ => 8
  | forward .label _ => 9
  | forward .type _ => 10
  | forward .key _ => 11
  | reverse _ _ => 12
  | index _ _ => 13
  | constraint _ _ => 14
  | relIndex _ _ => 15
  | format => 16

def tableOf (t : UInt8) : Nat :=
  [KeyNode, KeyEdge, KeyOut, KeyIn, KeyLabel, KeyProp, KeyUnique, KeyRelProp, tagCounter,
    tagLabelFwd, tagTypeFwd, tagKeyFwd, tagReverse, tagIndexReg, tagConstraint, tagRelIndex,
    tagFormat].idxOf t

theorem tableOf_tag (κ : Key) : tableOf κ.tag = κ.table := by
  cases κ with
  | forward d _ => cases d <;> rfl
  | _ => rfl

/-- Within one table the fixed widths and the self-delimiting values separate the parts. -/
theorem body_inj {a b : Key} (sameTable : a.table = b.table) (sameBody : a.body = b.body) : a = b := by
  cases a with
  | forward c _ =>
    cases b with
    | forward d _ =>
      cases c <;> cases d <;> simp_all [table, body]
    | _ => cases c <;> simp [table] at sameTable
  | _ =>
    cases b with
    | forward d _ => cases d <;> simp [table] at sameTable
    | _ =>
      first
      | rfl
      | (simp only [table, Nat.reduceEqDiff] at sameTable; done)
      | simpa [body, append_assoc, append64_inj, append32_inj, scalarBytes_append_inj,
          scalarBytes_inj, dictKind_inj, counterKind_inj] using sameBody

/-- Distinct keys never share their bytes, across all tables.
Witness: the first byte names the table, and within a table the parts can be read back.
-/
@[simp] theorem bytes_inj {a b : Key} : a.bytes = b.bytes ↔ a = b := by
  constructor
  · intro same
    obtain ⟨sameTag, sameBody⟩ := List.cons.inj same
    have sameTable : a.table = b.table := by rw [← tableOf_tag, ← tableOf_tag, sameTag]
    exact body_inj sameTable sameBody
  · rintro rfl
    rfl

theorem nodeKey_eq (n : UInt64) : nodeKey n = (node n).bytes := rfl

theorem edgeKey_eq (e : UInt64) : edgeKey e = (edge e).bytes := rfl

theorem outKey_eq (src : UInt64) (t : UInt32) (dst e : UInt64)
    : outKey src t dst e = (out src t dst e).bytes := rfl

theorem inKey_eq (dst : UInt64) (t : UInt32) (src e : UInt64)
    : inKey dst t src e = (inn dst t src e).bytes := rfl

theorem labelKey_eq (l : UInt32) (n : UInt64) : labelKey l n = (label l n).bytes := rfl

theorem counterKey_eq (c : Counter) : counterKey c.kind = (counter c).bytes := rfl

theorem forward_eq (d : Dict) (name : Str) : d.fwdTag :: name = (forward d name).bytes := rfl

theorem reverseKey_eq (d : Dict) (id : UInt32) : reverseKey d.kind id = (reverse d id).bytes := rfl

theorem indexKey_eq (l k : UInt32) : indexKey l k = (index l k).bytes := rfl

theorem constraintKey_eq (l k : UInt32) : constraintKey l k = (constraint l k).bytes := rfl

theorem relIndexKey_eq (t k : UInt32) : relIndexKey t k = (relIndex t k).bytes := rfl

theorem formatKey_eq : formatKey = format.bytes := rfl

/-- A scalar always has an index key. -/
theorem propKey_eq (l k : UInt32) (c : Scalar) (n : UInt64)
    : Codec.propKey l k c.toVal n = .ok (prop l k c n).bytes := by
  simp [Codec.propKey, appendIndexValue, propIndexPrefix, bytes, tag, body, bind, Except.bind,
    pure, Except.pure]

theorem uniqueKey_eq (l k : UInt32) (c : Scalar) : uniqueKey l k c.toVal = .ok (unique l k c).bytes := by
  simp [uniqueKey, appendIndexValue, uniquePrefix, bytes, tag, body, bind, Except.bind, pure,
    Except.pure]

theorem relPropKey_eq (t k : UInt32) (c : Scalar) (e : UInt64)
    : relPropKey t k c.toVal e = .ok (relProp t k c e).bytes := by
  simp [relPropKey, relPropPrefix, appendIndexValue, relPropIndexPrefix, bytes, tag, body, bind,
    Except.bind, pure, Except.pure]

end Key

def cell (s : Store) (κ : Key) : Option Bytes := s.get κ.bytes

@[simp] theorem cell_set (s : Store) (κ other : Key) (v : Bytes)
    : cell (s.set κ.bytes v) other = if other = κ then some v else cell s other := by
  simp [cell, get_set]

@[simp] theorem cell_delete (s : Store) (κ other : Key)
    : cell (s.delete κ.bytes) other = if other = κ then none else cell s other := by
  simp [cell, get_delete]

@[simp] theorem cell_empty (κ : Key) : cell .empty κ = none := rfl

/-- Every stored key is one of the keyspace. -/
def WellKeyed (s : Store) : Prop := ∀ k, s.get k ≠ none → ∃ κ : Key, k = κ.bytes

theorem WellKeyed.empty : WellKeyed .empty := fun _ found => absurd rfl found

theorem WellKeyed.set {s : Store} (keyed : WellKeyed s) (κ : Key) (v : Bytes)
    : WellKeyed (s.set κ.bytes v) := by
  intro k found
  by_cases same : k = κ.bytes
  · exact ⟨κ, same⟩
  · rw [get_set, if_neg same] at found
    exact keyed k found

theorem WellKeyed.delete {s : Store} (keyed : WellKeyed s) (κ : Key) : WellKeyed (s.delete κ.bytes) := by
  intro k found
  by_cases same : k = κ.bytes
  · exact ⟨κ, same⟩
  · rw [get_delete, if_neg same] at found
    exact keyed k found

end Intreccio
