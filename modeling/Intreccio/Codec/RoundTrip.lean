import Intreccio.Codec.Records
import Intreccio.Foundation.MapOrder

/-! Records round-trip (`internal/storage/codec/record.go`): what the encoder writes the decoder
reads back, and the bytes do not depend on the order in which the encoder visits its maps.
-/

namespace Intreccio.Codec

open Kv Words List OrderedMap

mutual
/-- A value as the loops of the encoder see it: the entries of each map in the order of the visit. -/
def visited (o : MapOrder) : Val → Val
  | .list items => .list (visitedItems o 0 items)
  | .map entries => .map ((o.sub 0).range (visitedEntries (o.sub 1) 0 entries))
  | v => v

/-- The items of a list, the first with choices `i`. -/
def visitedItems (o : MapOrder) (i : Nat) : List Val → List Val
  | [] => []
  | v :: rest => visited (o.sub i) v :: visitedItems o (i + 1) rest

def visitedEntries (o : MapOrder) (i : Nat) : List (Str × Val) → List (Str × Val)
  | [] => []
  | (k, v) :: rest => (k, visited (o.sub i) v) :: visitedEntries o (i + 1) rest
end

def visitedProps (o : MapOrder) (p : OrderedMap UInt32 Val) : List (UInt32 × Val) :=
  (o.sub 0).range (p.entries.zipIdx.map (fun e => (e.1.1, visited ((o.sub 1).sub e.2) e.1.2)))

/-- `appendProps` with its loop over the property map: the keys are collected and then sorted. -/
def appendPropsIn (o : MapOrder) (p : OrderedMap UInt32 Val) : Except Err Bytes := do
  let entries := visitedProps o p
  let body ← appendPropEntries (entries.insertionSort (fun a b => a.1 ≤ b.1))
  return appendLength entries.length ++ body

def encodeNodeIn (o : MapOrder) (rec : NodeRecord) : Except Err Bytes := do
  let labels := rec.labels.insertionSort (· ≤ ·)
  let props ← appendPropsIn o rec.props
  return appendLength labels.length ++ appendLabels labels ++ props

def encodeEdgeIn (o : MapOrder) (rec : EdgeRecord) : Except Err Bytes := do
  let props ← appendPropsIn o rec.props
  return uvarintBytes rec.type.toUInt64 ++ uvarintBytes rec.src ++ uvarintBytes rec.dst ++ props

theorem appendRecEntries_eq_map (entries : List (Str × Val))
    : appendRecEntries entries = entries.map (fun e => (e.1, appendRecValue e.2)) := by
  induction entries with
  | nil => rfl
  | cons e rest ih => simp [appendRecEntries, ih]

mutual
/-- The encoding of a value does not depend on the order of the visits. -/
theorem appendRecValue_visited (o : MapOrder) (v : Val) (h : representable v = true)
    : appendRecValue (visited o v) = appendRecValue v := by
  match v with
  | .list items =>
    simp only [representable, Bool.and_eq_true] at h
    have same := appendRecValues_visited o 0 items h.2
    simp only [visited, appendRecValue, same.1, same.2]
  | .map entries =>
    simp only [representable, Bool.and_eq_true, decide_eq_true_eq] at h
    obtain ⟨⟨_, sorted⟩, all⟩ := h
    have same := appendRecEntries_visited (o.sub 1) 0 entries all
    have visits := (o.sub 0).range_perm (visitedEntries (o.sub 1) 0 entries)
    have perm : (appendRecEntries ((o.sub 0).range (visitedEntries (o.sub 1) 0 entries))).Perm
        (appendRecEntries entries) := by
      rw [← same, appendRecEntries_eq_map, appendRecEntries_eq_map]
      exact visits.map _
    have distinct : ((appendRecEntries entries).map Prod.fst).Nodup := by
      rw [appendRecEntries_eq_map, map_map, List.Nodup, pairwise_map]
      exact sorted.imp ne_of_lt
    have length : ((o.sub 0).range (visitedEntries (o.sub 1) 0 entries)).length = entries.length := by
      simpa [appendRecEntries_eq_map] using perm.length_eq
    simp only [visited, appendRecValue, insertionSort_of_perm perm distinct, length]
  | .null | .bool _ | .int _ | .goInt _ | .float _ | .str _ | .node _ | .edge _ | .edges _
  | .path _ _ | .other _ => rfl

theorem appendRecValues_visited (o : MapOrder) (i : Nat) (items : List Val)
    (h : representableItems items = true)
    : appendRecValues (visitedItems o i items) = appendRecValues items
      ∧ (visitedItems o i items).length = items.length := by
  match items with
  | [] => exact ⟨rfl, rfl⟩
  | v :: rest =>
    simp only [representableItems, Bool.and_eq_true] at h
    obtain ⟨same, length⟩ := appendRecValues_visited o (i + 1) rest h.2
    simp only [visitedItems, appendRecValues, appendRecValue_visited (o.sub i) v h.1, same,
      length_cons, length, and_self]

theorem appendRecEntries_visited (o : MapOrder) (i : Nat) (entries : List (Str × Val))
    (h : representableEntries entries = true)
    : appendRecEntries (visitedEntries o i entries) = appendRecEntries entries := by
  match entries with
  | [] => rfl
  | (k, v) :: rest =>
    simp only [representableEntries, Bool.and_eq_true] at h
    simp only [visitedEntries, appendRecEntries, appendRecValue_visited (o.sub i) v h.1.2,
      appendRecEntries_visited o (i + 1) rest h.2]
end

/-- The entries of a property map have distinct keys, in order. -/
theorem appendPropsIn_eq (o : MapOrder) {p : OrderedMap UInt32 Val} (h : RepresentableProps p)
    : appendPropsIn o p = appendProps p := by
  let seen := p.entries.zipIdx.map (fun e => (e.1.1, visited ((o.sub 1).sub e.2) e.1.2))
  have keys : seen.map Prod.fst = p.entries.map Prod.fst := by
    rw [map_map, ← zipIdx_map_fst 0 p.entries, map_map, zipIdx_map_fst]
    rfl
  have sorted : seen.Pairwise (fun a b => a.1 < b.1) := by
    rw [← pairwise_map (f := Prod.fst) (R := (· < ·)), keys]
    exact pairwise_map.mpr p.sorted
  have distinct : (seen.map Prod.fst).Nodup := pairwise_map.mpr (sorted.imp ne_of_lt)
  have perm : (visitedProps o p).Perm seen := (o.sub 0).range_perm seen
  have ordered : (visitedProps o p).insertionSort (fun a b => a.1 ≤ b.1) = seen := by
    rw [insertionSort_of_perm perm distinct, insertionSort_of_sorted sorted]
  have encoded (i : Nat) (entries : List (UInt32 × Val)) (all : ∀ e ∈ entries, representable e.2 = true)
      : appendPropEntries ((entries.zipIdx i).map (fun e => (e.1.1, visited ((o.sub 1).sub e.2) e.1.2)))
        = appendPropEntries entries := by
    induction entries generalizing i with
    | nil => rfl
    | cons e rest ih =>
      simp only [zipIdx_cons, map_cons, appendPropEntries,
        appendRecValue_visited _ e.2 (all e (by simp)), ih (i + 1) (fun e member => all e (by simp [member]))]
  have length : (visitedProps o p).length = p.entries.length := by
    rw [perm.length_eq, length_map, length_zipIdx]
  simp only [appendPropsIn, appendProps, ordered, length]
  rw [encoded 0 p.entries (fun e member => h e.1 e.2 (get_eq_some_iff.mpr member))]

theorem encodeNodeIn_eq (o : MapOrder) {rec : NodeRecord} (h : RepresentableProps rec.props)
    : encodeNodeIn o rec = encodeNode rec := by
  simp only [encodeNodeIn, encodeNode, appendPropsIn_eq o h]

theorem encodeEdgeIn_eq (o : MapOrder) {rec : EdgeRecord} (h : RepresentableProps rec.props)
    : encodeEdgeIn o rec = encodeEdge rec := by
  simp only [encodeEdgeIn, encodeEdge, appendPropsIn_eq o h]

theorem EncodableProps.representable {p : OrderedMap UInt32 Val} (h : EncodableProps p)
    : RepresentableProps p :=
  fun k v held => representable_of_encodable v (h k v held)

/-- A node record that Go can hold is encoded to the same bytes whatever the order of its maps, and
decodes with its labels sorted and its values in recorded form; likewise an edge record.
-/
theorem records_round_trip
    : (∀ rec : NodeRecord, rec.labels.length < maxLen → EncodableProps rec.props
        → ∃ b, (∀ o, encodeNodeIn o rec = .ok b)
          ∧ decodeNode b = .ok ⟨rec.labels.insertionSort (· ≤ ·), recProps rec.props⟩)
      ∧ ∀ rec : EdgeRecord, EncodableProps rec.props
        → ∃ b, (∀ o, encodeEdgeIn o rec = .ok b)
          ∧ decodeEdge b = .ok ⟨rec.type, rec.src, rec.dst, recProps rec.props⟩ := by
  constructor
  · intro rec small encodable
    obtain ⟨b, encoded, decoded⟩ := decodeNode_encodeNode_of_length small encodable
    exact ⟨b, fun o => (encodeNodeIn_eq o encodable.representable).trans encoded, decoded⟩
  · intro rec encodable
    obtain ⟨b, encoded, decoded⟩ := decodeEdge_encodeEdge encodable
    exact ⟨b, fun o => (encodeEdgeIn_eq o encodable.representable).trans encoded, decoded⟩

/-- A label listed twice, and a list with a Go `int` and a map with an empty key. -/
def sampleRecord : NodeRecord where
  labels := [7, 2, 7]
  props := OrderedMap.empty.set 3 (.list [.goInt (-5), .map [([], .null), (lit "k", .list [])], .float ⟨0x7ff8000000000001⟩])

theorem records_round_trip_sample
    : ∃ b, (∀ o, encodeNodeIn o sampleRecord = .ok b)
      ∧ decodeNode b = .ok ⟨[2, 7, 7], OrderedMap.empty.set 3
          (.list [.int (-5), .map [([], .null), (lit "k", .list [])], .float ⟨0x7ff8000000000001⟩])⟩ := by
  have encodable : EncodableProps sampleRecord.props := by
    intro k v held
    have entry := OrderedMap.get_eq_some_iff.mp held
    obtain ⟨rfl, rfl⟩ := Prod.mk.inj (List.mem_singleton.mp entry)
    decide +kernel
  exact records_round_trip.1 sampleRecord (by decide) encodable

end Intreccio.Codec
