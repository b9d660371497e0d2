import Intreccio.Codec.IndexValues

/-! The record codec (`internal/storage/codec/record.go`): a self-describing, length-prefixed
format for the values of `n` and `e` keys, with lists and maps nested to any depth.
-/

namespace Intreccio.Codec

open Kv Words List OrderedMap

def recNull : UInt8 := 0
def recBool : UInt8 := 1
def recInt : UInt8 := 2
def recFloat : UInt8 := 3
def recStr : UInt8 := 4
def recList : UInt8 := 5
def recMap : UInt8 := 6

/-- The value of an `n` key. -/
structure NodeRecord where
  labels : List UInt32
  props : OrderedMap UInt32 Val

/-- The value of an `e` key. -/
structure EdgeRecord where
  type : UInt32
  src : UInt64
  dst : UInt64
  props : OrderedMap UInt32 Val

def appendLength (n : Nat) : Bytes := uvarintBytes (UInt64.ofNat n)

def appendInt (v : Int64) : Bytes := recInt :: uvarintBytes (zigzag v)

def unsupported (v : Val) : Err := .plain ("codec: unsupported property type " ++ v.typeName)

/-- The values of a map in key order; the first value that cannot be encoded is the error. -/
def concatEntries : List (Str × Except Err Bytes) → Except Err Bytes
  | [] => .ok []
  | (k, value) :: rest => do
      let v ← value
      let more ← concatEntries rest
      return appendLength k.length ++ k ++ v ++ more

mutual
def appendRecValue : Val → Except Err Bytes
  | .null => .ok [recNull]
  | .bool b => .ok [recBool, if b then 1 else 0]
  | .goInt i => .ok (appendInt i)
  | .int i => .ok (appendInt i)
  | .float f => .ok (recFloat :: uint64Bytes f.bits)
  | .str s => .ok (recStr :: (appendLength s.length ++ s))
  | .list items => do
      let body ← appendRecValues items
      return recList :: (appendLength items.length ++ body)
  | .map entries => do
      let body ← concatEntries
        ((appendRecEntries entries).insertionSort (fun a b => a.1 ≤ b.1))
      return recMap :: (appendLength entries.length ++ body)
  | .node n => .error (unsupported (.node n))
  | .edge e => .error (unsupported (.edge e))
  | .edges items => .error (unsupported (.edges items))
  | .path nodes rels => .error (unsupported (.path nodes rels))
  | .other type => .error (unsupported (.other type))

def appendRecValues : List Val → Except Err Bytes
  | [] => .ok []
  | v :: rest => do
      let b ← appendRecValue v
      let more ← appendRecValues rest
      return b ++ more

def appendRecEntries : List (Str × Val) → List (Str × Except Err Bytes)
  | [] => []
  | (k, v) :: rest => (k, appendRecValue v) :: appendRecEntries rest
end

/-- The properties in ascending key order, each as its key ID and value. -/
def appendPropEntries : List (UInt32 × Val) → Except Err Bytes
  | [] => .ok []
  | (k, v) :: rest => do
      let b ← appendRecValue v
      let more ← appendPropEntries rest
      return uvarintBytes k.toUInt64 ++ b ++ more

def appendProps (props : OrderedMap UInt32 Val) : Except Err Bytes := do
  let body ← appendPropEntries props.entries
  return appendLength props.entries.length ++ body

def appendLabels (labels : List UInt32) : Bytes :=
  labels.flatMap (fun l => uvarintBytes l.toUInt64)

def encodeNode (rec : NodeRecord) : Except Err Bytes := do
  let labels := rec.labels.insertionSort (· ≤ ·)
  let props ← appendProps rec.props
  return appendLength labels.length ++ appendLabels labels ++ props

def encodeEdge (rec : EdgeRecord) : Except Err Bytes := do
  let props ← appendProps rec.props
  return uvarintBytes rec.type.toUInt64 ++ uvarintBytes rec.src ++ uvarintBytes rec.dst ++ props

/-- A reader returns what it read and the rest of the buffer. -/
abbrev Reader (α : Type) := Bytes → Except Err (α × Bytes)

def uvarint : Reader UInt64 := fun b =>
  match readUvarint b with
  | some r => .ok r
  | none => .error .shortBuffer

def varint : Reader Int64 := fun b => do
  let (u, rest) ← uvarint b
  return (unzigzag u, rest)

def bytes (n : Nat) : Reader Bytes := fun b =>
  if b.length < n then .error .shortBuffer else .ok (b.take n, b.drop n)

def readMany {α : Type} (item : Reader α) : Nat → Reader (List α)
  | 0, b => .ok ([], b)
  | n + 1, b => do
      let (a, rest) ← item b
      let (more, rest) ← readMany item n rest
      return (a :: more, rest)

/-- A count read from the buffer, refused when it exceeds the bytes that are left. -/
def count (refusal : UInt64 → Err) : Reader Nat := fun b => do
  let (n, rest) ← uvarint b
  if rest.length < n.toNat then throw (refusal n)
  return (n.toNat, rest)

/-- `fmt.Errorf("<what> %d", n)`. -/
def tooMany (what : String) (n : UInt64) : Err := .plain (what ++ " " ++ toString n.toNat)

def mapEntry (value : Reader Val) : Reader (Str × Val) := fun b => do
  let (klen, rest) ← uvarint b
  let (k, rest) ← bytes klen.toNat rest
  let (v, rest) ← value rest
  return ((k, v), rest)

/-- One value. `depth` bounds the nesting; a nested value starts at least one byte further. -/
def value : Nat → Reader Val
  | 0, _ => .error .shortBuffer
  | depth + 1, b =>
    match b with
    | [] => .error .shortBuffer
    | tag :: rest =>
      if tag = recNull then .ok (.null, rest)
      else if tag = recBool then
        match rest with
        | [] => .error .shortBuffer
        | c :: rest => .ok (.bool (c ≠ 0), rest)
      else if tag = recInt then do
        let (i, rest) ← varint rest
        return (.int i, rest)
      else if tag = recFloat then do
        let (raw, rest) ← bytes 8 rest
        return (.float ⟨uint64OfBytes raw⟩, rest)
      else if tag = recStr then do
        let (n, rest) ← count (fun _ => .shortBuffer) rest
        let (raw, rest) ← bytes n rest
        return (.str raw, rest)
      else if tag = recList then do
        let (n, rest) ← count (tooMany "codec: list, implausible length") rest
        let (items, rest) ← readMany (value depth) n rest
        return (.list items, rest)
      else if tag = recMap then do
        let (n, rest) ← count (tooMany "codec: map, implausible size") rest
        let (entries, rest) ← readMany (mapEntry (value depth)) n rest
        return (.map (entries.foldl (fun m e => OrderedMap.insertEntry e.1 e.2 m) []), rest)
      else .error (.plain ("codec: unknown record tag 0x" ++ hexByte tag))

def propEntry : Reader (UInt32 × Val) := fun b => do
  let (k, rest) ← (uvarint b).mapError (.because "codec: property key")
  let (v, rest) ← (value rest.length rest).mapError
    (.because ("codec: property value " ++ toString k.toNat))
  return ((k.toUInt32, v), rest)

def props : Reader (OrderedMap UInt32 Val) := fun b => do
  let (n, rest) ← (uvarint b).mapError (.because "codec: property count")
  if rest.length < n.toNat then throw (tooMany "codec: property map, implausible count" n)
  let (entries, rest) ← readMany propEntry n.toNat rest
  return (entries.foldl (fun m e => m.set e.1 e.2) .empty, rest)

def readLabels (i : Nat) : Nat → Reader (List UInt32)
  | 0, b => .ok ([], b)
  | n + 1, b => do
      let (l, rest) ← (uvarint b).mapError
        (.because ("codec: node record, label " ++ toString i))
      let (more, rest) ← readLabels (i + 1) n rest
      return (l.toUInt32 :: more, rest)

def decodeNode (b : Bytes) : Except Err NodeRecord := do
  let (n, rest) ← (uvarint b).mapError (.because "codec: node record, label count")
  if rest.length < n.toNat then throw (tooMany "codec: node record, implausible label count" n)
  let (labels, rest) ← readLabels 0 n.toNat rest
  let (p, _) ← props rest
  return ⟨labels, p⟩

def decodeEdge (b : Bytes) : Except Err EdgeRecord := do
  let (typ, rest) ← (uvarint b).mapError (.because "codec: edge record, type")
  let (src, rest) ← (uvarint rest).mapError (.because "codec: edge record, src")
  let (dst, rest) ← (uvarint rest).mapError (.because "codec: edge record, dst")
  let (p, _) ← props rest
  return ⟨typ.toUInt32, src, dst, p⟩

def maxLen : Nat := 2 ^ 63

mutual
/-- The values the encoder takes: no type it does not know, map keys listed once and in
order, every length a Go `int`.
-/
def encodable : Val → Bool
  | .null | .bool _ | .int _ | .goInt _ | .float _ => true
  | .str s => s.length < maxLen
  | .list items => items.length < maxLen && encodableItems items
  | .map entries =>
    entries.length < maxLen && decide (entries.Pairwise (fun a b => a.1 < b.1))
      && encodableEntries entries
  | _ => false

def encodableItems : List Val → Bool
  | [] => true
  | v :: rest => encodable v && encodableItems rest

def encodableEntries : List (Str × Val) → Bool
  | [] => true
  | (k, v) :: rest => k.length < maxLen && encodable v && encodableEntries rest
end

mutual
/-- The form in which a value comes back: a Go `int` is read as an `int64`, at any depth. -/
def recForm : Val → Val
  | .goInt i => .int i
  | .list items => .list (recItems items)
  | .map entries => .map (recEntries entries)
  | v => v

def recItems : List Val → List Val
  | [] => []
  | v :: rest => recForm v :: recItems rest

def recEntries : List (Str × Val) → List (Str × Val)
  | [] => []
  | (k, v) :: rest => (k, recForm v) :: recEntries rest
end

theorem length_recItems (items : List Val) : (recItems items).length = items.length := by
  induction items with
  | nil => rfl
  | cons v rest ih => simp [recItems, ih]

theorem keys_recEntries (entries : List (Str × Val))
    : (recEntries entries).map Prod.fst = entries.map Prod.fst := by
  induction entries with
  | nil => rfl
  | cons entry rest ih => simp [recEntries, ih]

variable {entries : List (Str × Val)}

theorem recEntries_sorted
    (sorted : entries.Pairwise (fun a b => a.1 < b.1))
    : (recEntries entries).Pairwise (fun a b => a.1 < b.1) := by
  have keys : ((recEntries entries).map Prod.fst).Pairwise (· < ·) := by
    rw [keys_recEntries]
    exact pairwise_map.mpr sorted
  exact pairwise_map.mp keys

variable {n : Nat}

theorem toNat_length (h : n < maxLen) : (UInt64.ofNat n).toNat = n := by
  have bound : n < 2 ^ 64 := by
    simp only [maxLen] at h
    omega
  exact UInt64.toNat_ofNat_of_lt' bound

@[simp] theorem uvarint_append (v : UInt64) (rest : Bytes)
    : uvarint (uvarintBytes v ++ rest) = .ok (v, rest) := by
  simp [uvarint]

@[simp] theorem bytes_append (s rest : Bytes) : bytes s.length (s ++ rest) = .ok (s, rest) := by
  simp [bytes]

variable {rest : Bytes}

/-- A count that leaves enough bytes is accepted. -/
theorem count_append (refusal : UInt64 → Err)
    (small : n < maxLen) (room : n ≤ rest.length)
    : count refusal (appendLength n ++ rest) = .ok (n, rest) := by
  have fits : ¬ rest.length < n := by omega
  simp only [count, appendLength, uvarint_append, bind, Except.bind, toNat_length small, fits,
    if_false, pure, Except.pure]

theorem uvarintBytes_length_pos (v : UInt64) : 1 ≤ (uvarintBytes v).length := by
  rw [uvarintBytes, varintDigits.eq_def]
  dsimp only
  split <;> simp

/-- `e` encodes `v`: a reader allowed to nest as deep as `e` is long gets `v` back. -/
def Encodes (e : Bytes) (v : Val) : Prop :=
  1 ≤ e.length ∧ ∀ depth rest, e.length ≤ depth → value depth (e ++ rest) = .ok (v, rest)

variable {v : Val}

/-- A tagged encoding reads one level deeper than its body. -/
theorem encodes_of_tag {tag : UInt8} {body : Bytes}
    (read : ∀ depth rest, body.length ≤ depth → value (depth + 1) (tag :: (body ++ rest)) = .ok (v, rest))
    : Encodes (tag :: body) v := by
  refine ⟨by simp, fun depth rest deep => ?_⟩
  obtain ⟨d, rfl⟩ : ∃ d, depth = d + 1 := ⟨depth - 1, by simp at deep; omega⟩
  exact read d rest (by simpa using deep)

/-- The key order of the encoder leaves sorted entries where they are. -/
theorem appendRecEntries_sorted
    (sorted : entries.Pairwise (fun a b => a.1 < b.1))
    : (appendRecEntries entries).insertionSort (fun a b => a.1 ≤ b.1) = appendRecEntries entries := by
  have keys (l : List (Str × Val)) : (appendRecEntries l).map Prod.fst = l.map Prod.fst := by
    induction l with
    | nil => rfl
    | cons entry rest ih => simp [appendRecEntries, ih]
  apply List.Pairwise.insertionSort_eq
  have ordered : ((appendRecEntries entries).map Prod.fst).Pairwise (· ≤ ·) := by
    rw [keys, pairwise_map]
    exact sorted.imp le_of_lt
  exact pairwise_map.mp ordered

-- The three lemmas follow the encoder's recursion: a value, the items of a list, the entries of
-- a map. A count is always plausible since every item takes at least one byte.
mutual
theorem appendRecValue_encodes (v : Val) (h : encodable v = true)
    : ∃ e, appendRecValue v = .ok e ∧ Encodes e (recForm v) := by
  match v with
  | .null => exact ⟨_, rfl, (encodes_of_tag (fun _ _ _ => rfl) : Encodes (recNull :: []) (recForm .null))⟩
  | .bool b =>
    refine ⟨_, rfl, encodes_of_tag (fun depth rest _ => ?_)⟩
    cases b <;> rfl
  | .int i | .goInt i =>
    refine ⟨_, rfl, encodes_of_tag (fun depth rest _ => ?_)⟩
    simp [recForm, value, varint, recInt, recNull, recBool, bind, Except.bind, pure, Except.pure]
  | .float f =>
    refine ⟨_, rfl, encodes_of_tag (fun depth rest _ => ?_)⟩
    have word := bytes_append (uint64Bytes f.bits) rest
    rw [length_uint64Bytes] at word
    simp [recForm, value, word, recFloat, recInt, recNull, recBool, bind, Except.bind, pure, Except.pure]
  | .str s =>
    refine ⟨_, rfl, encodes_of_tag (fun depth rest _ => ?_)⟩
    have small : s.length < maxLen := by simpa [encodable] using h
    simp [recForm, value, count_append _ small, recStr, recFloat, recInt, recNull, recBool, bind,
      Except.bind, pure, Except.pure]
  | .list items =>
    simp only [encodable, Bool.and_eq_true, decide_eq_true_eq] at h
    obtain ⟨body, encoded, room, read⟩ := appendRecValues_encodes items h.2
    refine ⟨_, by simp only [appendRecValue, encoded]; rfl, encodes_of_tag (fun depth rest deep => ?_)⟩
    have deep' : body.length ≤ depth := by simp at deep; omega
    have counted := count_append (tooMany "codec: list, implausible length") h.1
      (room.trans (by simp : body.length ≤ (body ++ rest).length))
    simp [recForm, value, counted, read depth rest deep', recList, recStr, recFloat, recInt, recNull,
      recBool, bind, Except.bind, pure, Except.pure]
  | .map entries =>
    simp only [encodable, Bool.and_eq_true, decide_eq_true_eq] at h
    obtain ⟨⟨small, sorted⟩, all⟩ := h
    obtain ⟨body, encoded, room, read⟩ := appendRecEntries_encodes entries all
    refine ⟨_, by simp only [appendRecValue, appendRecEntries_sorted sorted, encoded]; rfl,
      encodes_of_tag (fun depth rest deep => ?_)⟩
    have deep' : body.length ≤ depth := by simp at deep; omega
    have counted := count_append (tooMany "codec: map, implausible size") small
      (room.trans (by simp : body.length ≤ (body ++ rest).length))
    have rebuilt := foldl_insertEntry [] (recEntries entries)
      (by simpa using recEntries_sorted sorted)
    simp [recForm, value, counted, read depth rest deep', rebuilt, recMap, recList, recStr, recFloat,
      recInt, recNull, recBool, bind, Except.bind, pure, Except.pure]
  | .node _ | .edge _ | .edges _ | .path _ _ | .other _ => simp [encodable] at h

theorem appendRecValues_encodes (items : List Val) (h : encodableItems items = true)
    : ∃ e, appendRecValues items = .ok e ∧ items.length ≤ e.length
      ∧ ∀ depth rest, e.length ≤ depth
        → readMany (value depth) items.length (e ++ rest) = .ok (recItems items, rest) := by
  match items with
  | [] => exact ⟨[], rfl, by simp, fun _ _ _ => rfl⟩
  | v :: tail =>
    simp only [encodableItems, Bool.and_eq_true] at h
    obtain ⟨first, encoded, nonempty, read⟩ := appendRecValue_encodes v h.1
    obtain ⟨more, encodedTail, room, readTail⟩ := appendRecValues_encodes tail h.2
    refine ⟨first ++ more, by simp only [appendRecValues, encoded, encodedTail]; rfl,
      by simp; omega, fun depth rest deep => ?_⟩
    simp only [length_append] at deep
    simp [recItems, readMany, read depth (more ++ rest) (by omega), readTail depth rest (by omega), bind,
      Except.bind, pure, Except.pure]

theorem appendRecEntries_encodes (entries : List (Str × Val)) (h : encodableEntries entries = true)
    : ∃ e, concatEntries (appendRecEntries entries) = .ok e ∧ entries.length ≤ e.length
      ∧ ∀ depth rest, e.length ≤ depth
        → readMany (mapEntry (value depth)) entries.length (e ++ rest)
          = .ok (recEntries entries, rest) := by
  match entries with
  | [] => exact ⟨[], rfl, by simp, fun _ _ _ => rfl⟩
  | (k, v) :: tail =>
    simp only [encodableEntries, Bool.and_eq_true, decide_eq_true_eq] at h
    obtain ⟨first, encoded, nonempty, read⟩ := appendRecValue_encodes v h.1.2
    obtain ⟨more, encodedTail, room, readTail⟩ := appendRecEntries_encodes tail h.2
    refine ⟨appendLength k.length ++ k ++ first ++ more,
      by simp only [appendRecEntries, concatEntries, encoded, encodedTail]; rfl,
      by simp; omega, fun depth rest deep => ?_⟩
    simp only [length_append] at deep
    simp [recEntries, readMany, mapEntry, appendLength, toNat_length h.1.1,
      read depth (more ++ rest) (by omega), readTail depth rest (by omega), bind, Except.bind,
      pure, Except.pure]
end

/-- A value that can be encoded and comes back as it is. -/
structure Stable (v : Val) : Prop where
  encodable : encodable v = true
  settled : recForm v = v

theorem stable_list {items : List Val} (few : items.length < maxLen) (all : ∀ v ∈ items, Stable v)
    : Stable (.list items) := by
  have inside : encodableItems items = true ∧ recItems items = items := by
    clear few
    induction items with
    | nil => exact ⟨rfl, rfl⟩
    | cons v rest ih =>
      obtain ⟨first, others⟩ := forall_mem_cons.mp all
      obtain ⟨encodable, settled⟩ := ih others
      exact ⟨by simp [encodableItems, first.encodable, encodable],
        by rw [recItems, first.settled, settled]⟩
  exact ⟨by simp [encodable, few, inside.1], by rw [recForm, inside.2]⟩

theorem stable_map (few : entries.length < maxLen)
    (sorted : entries.Pairwise (fun a b => a.1 < b.1))
    (all : ∀ e ∈ entries, e.1.length < maxLen ∧ Stable e.2)
    : Stable (.map entries) := by
  have inside : encodableEntries entries = true ∧ recEntries entries = entries := by
    clear few sorted
    induction entries with
    | nil => exact ⟨rfl, rfl⟩
    | cons e rest ih =>
      obtain ⟨⟨short, first⟩, others⟩ := forall_mem_cons.mp all
      obtain ⟨encodable, settled⟩ := ih others
      exact ⟨by simp [encodableEntries, short, first.encodable, encodable],
        by rw [recEntries, first.settled, settled]⟩
  exact ⟨by simp [encodable, few, sorted, inside.1], by rw [recForm, inside.2]⟩

mutual
theorem stable_recForm (v : Val) (h : encodable v = true) : Stable (recForm v) := by
  match v with
  | .list items =>
    simp only [encodable, Bool.and_eq_true, decide_eq_true_eq] at h
    rw [recForm]
    exact stable_list (by rw [length_recItems]; exact h.1) (stable_recItems items h.2)
  | .map entries =>
    simp only [encodable, Bool.and_eq_true, decide_eq_true_eq] at h
    obtain ⟨⟨small, sorted⟩, all⟩ := h
    have size : (recEntries entries).length = entries.length := by
      simpa using congrArg List.length (keys_recEntries entries)
    rw [recForm]
    exact stable_map (by rwa [size]) (recEntries_sorted sorted) (stable_recEntries entries all)
  | .null | .bool _ | .int _ | .goInt _ | .float _ => exact ⟨rfl, rfl⟩
  | .str _ => exact ⟨h, rfl⟩
  | .node _ | .edge _ | .edges _ | .path _ _ | .other _ => simp [encodable] at h

theorem stable_recItems (items : List Val) (h : encodableItems items = true)
    : ∀ v ∈ recItems items, Stable v := by
  match items with
  | [] => simp [recItems]
  | v :: rest =>
    simp only [encodableItems, Bool.and_eq_true] at h
    exact forall_mem_cons.mpr ⟨stable_recForm v h.1, stable_recItems rest h.2⟩

theorem stable_recEntries (entries : List (Str × Val)) (h : encodableEntries entries = true)
    : ∀ e ∈ recEntries entries, e.1.length < maxLen ∧ Stable e.2 := by
  match entries with
  | [] => simp [recEntries]
  | (k, v) :: rest =>
    simp only [encodableEntries, Bool.and_eq_true, decide_eq_true_eq] at h
    exact forall_mem_cons.mpr ⟨⟨h.1.1, stable_recForm v h.1.2⟩, stable_recEntries rest h.2⟩
end

mutual
/-- What holds of every Go value: lengths are `int`s, and a map has each key once. -/
def representable : Val → Bool
  | .str s => s.length < maxLen
  | .list items => items.length < maxLen && representableItems items
  | .map entries =>
    entries.length < maxLen && decide (entries.Pairwise (fun a b => a.1 < b.1))
      && representableEntries entries
  | _ => true

def representableItems : List Val → Bool
  | [] => true
  | v :: rest => representable v && representableItems rest

def representableEntries : List (Str × Val) → Bool
  | [] => true
  | (k, v) :: rest => k.length < maxLen && representable v && representableEntries rest
end

mutual
theorem encodable_of_ok (v : Val) (h : representable v = true) {e : Bytes}
    (encoded : appendRecValue v = .ok e)
    : encodable v = true := by
  match v with
  | .null | .bool _ | .int _ | .goInt _ | .float _ => rfl
  | .str _ => exact h
  | .list items =>
    simp only [representable, Bool.and_eq_true, decide_eq_true_eq] at h
    simp only [appendRecValue, bind_eq_ok] at encoded
    obtain ⟨body, inside, _⟩ := encoded
    simp [encodable, h.1, encodable_of_ok_items items h.2 inside]
  | .map entries =>
    simp only [representable, Bool.and_eq_true, decide_eq_true_eq] at h
    obtain ⟨⟨small, sorted⟩, all⟩ := h
    simp only [appendRecValue, appendRecEntries_sorted sorted, bind_eq_ok] at encoded
    obtain ⟨body, inside, _⟩ := encoded
    simp [encodable, small, sorted, encodable_of_ok_entries entries all inside]
  | .node _ | .edge _ | .edges _ | .path _ _ | .other _ => simp [appendRecValue] at encoded

theorem encodable_of_ok_items (items : List Val) (h : representableItems items = true) {e : Bytes}
    (encoded : appendRecValues items = .ok e)
    : encodableItems items = true := by
  match items with
  | [] => rfl
  | v :: rest =>
    simp only [representableItems, Bool.and_eq_true] at h
    simp only [appendRecValues, bind_eq_ok] at encoded
    obtain ⟨first, here, more, there, _⟩ := encoded
    simp [encodableItems, encodable_of_ok v h.1 here, encodable_of_ok_items rest h.2 there]

theorem encodable_of_ok_entries (entries : List (Str × Val))
    (h : representableEntries entries = true) {e : Bytes}
    (encoded : concatEntries (appendRecEntries entries) = .ok e)
    : encodableEntries entries = true := by
  match entries with
  | [] => rfl
  | (k, v) :: rest =>
    simp only [representableEntries, Bool.and_eq_true, decide_eq_true_eq] at h
    simp only [appendRecEntries, concatEntries, bind_eq_ok] at encoded
    obtain ⟨first, here, more, there, _⟩ := encoded
    simp [encodableEntries, h.1.1, encodable_of_ok v h.1.2 here,
      encodable_of_ok_entries rest h.2 there]
end

def EncodableProps (p : OrderedMap UInt32 Val) : Prop :=
  ∀ k v, p.get k = some v → encodable v = true

def recProps (p : OrderedMap UInt32 Val) : OrderedMap UInt32 Val := p.mapValues recForm

/-- Properties as a record holds them: encodable, and in the form they come back. -/
structure StorableProps (p : OrderedMap UInt32 Val) : Prop where
  encodable : EncodableProps p
  settled : recProps p = p

variable {p : OrderedMap UInt32 Val} {rec : NodeRecord}

theorem StorableProps.of_stable (stable : ∀ k v, p.get k = some v → Stable v) : StorableProps p := by
  refine ⟨fun k v held => (stable k v held).encodable, OrderedMap.ext fun k => ?_⟩
  rw [recProps, get_mapValues]
  exact (Option.map_congr fun v held => (stable k v held).settled).trans Option.map_id'

theorem StorableProps.recProps (h : EncodableProps p) : StorableProps (recProps p) := by
  refine .of_stable fun k v found => ?_
  simp only [Codec.recProps, get_mapValues, Option.map_eq_some_iff] at found
  obtain ⟨w, held, rfl⟩ := found
  exact stable_recForm w (h k w held)

/-- Distinct 32-bit IDs are fewer than a Go `int` can count. -/
theorem length_lt_maxLen {ids : List UInt32} (distinct : ids.Nodup) : ids.length < maxLen := by
  have inside : ids.map UInt32.toNat ⊆ List.range (2 ^ 32) := by
    intro n member
    obtain ⟨id, _, rfl⟩ := mem_map.mp member
    exact mem_range.mpr id.toNat_lt
  have injective : (ids.map UInt32.toNat).Nodup :=
    List.Nodup.map (fun a b => UInt32.toNat_inj.mp) distinct
  have bound := (subperm_of_subset injective inside).length_le
  rw [length_map, length_range] at bound
  have : (2 : Nat) ^ 32 < maxLen := by decide
  omega

theorem appendPropEntries_encodes (entries : List (UInt32 × Val))
    (all : ∀ e ∈ entries, encodable e.2 = true)
    : ∃ e, appendPropEntries entries = .ok e ∧ entries.length ≤ e.length
      ∧ ∀ rest, readMany propEntry entries.length (e ++ rest)
        = .ok (entries.map (fun entry => (entry.1, recForm entry.2)), rest) := by
  induction entries with
  | nil => exact ⟨[], rfl, by simp, fun _ => rfl⟩
  | cons entry tail ih =>
    obtain ⟨k, v⟩ := entry
    obtain ⟨first, encoded, nonempty, read⟩ := appendRecValue_encodes v (all (k, v) (by simp))
    obtain ⟨more, encodedTail, room, readTail⟩ := ih (fun e he => all e (by simp [he]))
    refine ⟨uvarintBytes k.toUInt64 ++ first ++ more,
      by simp only [appendPropEntries, encoded, encodedTail]; rfl, by simp; omega, fun rest => ?_⟩
    have deep := read (first ++ (more ++ rest)).length (more ++ rest) (by simp)
    simp only [length_append] at deep
    simp [readMany, propEntry, deep, readTail rest, Except.mapError, bind, Except.bind, pure,
      Except.pure]

/-- Encodable properties are encoded, and come back in their recorded form. -/
theorem props_appendProps (h : EncodableProps p)
    : ∃ e, appendProps p = .ok e ∧ ∀ rest, props (e ++ rest) = .ok (recProps p, rest) := by
  obtain ⟨body, encoded, room, read⟩ := appendPropEntries_encodes p.entries
    (fun e member => h e.1 e.2 (get_eq_some_iff.mpr member))
  refine ⟨_, by simp only [appendProps, encoded]; rfl, fun rest => ?_⟩
  have distinct : (p.entries.map Prod.fst).Nodup := by
    rw [List.Nodup, pairwise_map]
    exact p.sorted.imp ne_of_lt
  have small : p.entries.length < maxLen := by simpa using length_lt_maxLen distinct
  have fits : ¬ (body ++ rest).length < p.entries.length := by simp; omega
  simp only [props, appendLength, append_assoc, uvarint_append, Except.mapError, bind,
    Except.bind, toNat_length small, fits, if_false, read rest, pure, Except.pure]
  exact congrArg (fun m => Except.ok (m, rest)) (foldl_set (recProps p))

theorem readLabels_appendLabels (i : Nat) (labels : List UInt32) (rest : Bytes)
    : readLabels i labels.length (appendLabels labels ++ rest) = .ok (labels, rest) := by
  induction labels generalizing i with
  | nil => rfl
  | cons l tail ih =>
    have tail' := ih (i + 1)
    simp only [appendLabels] at tail'
    simp [readLabels, appendLabels, tail', Except.mapError, bind, Except.bind, pure, Except.pure]

theorem length_appendLabels (labels : List UInt32) : labels.length ≤ (appendLabels labels).length := by
  induction labels with
  | nil => simp
  | cons l tail ih =>
    have first := uvarintBytes_length_pos l.toUInt64
    simp only [appendLabels, flatMap_cons, length_append, length_cons] at ih ⊢
    omega

/-- A node record with encodable properties is encoded, and decodes to its recorded form with
its labels in ascending order.
-/
theorem decodeNode_encodeNode_of_length (few : rec.labels.length < maxLen)
    (h : EncodableProps rec.props)
    : ∃ e, encodeNode rec = .ok e
      ∧ decodeNode e = .ok ⟨rec.labels.insertionSort (· ≤ ·), recProps rec.props⟩ := by
  obtain ⟨body, encoded, read⟩ := props_appendProps h
  refine ⟨_, by simp only [encodeNode, encoded]; rfl, ?_⟩
  set labels := rec.labels.insertionSort (· ≤ ·) with ordered
  have small : labels.length < maxLen := by
    rw [ordered, length_insertionSort]
    exact few
  have room := length_appendLabels labels
  have fits : ¬ (appendLabels labels ++ body).length < labels.length := by simp; omega
  have properties := read []
  rw [append_nil] at properties
  simp only [decodeNode, appendLength, append_assoc, uvarint_append, Except.mapError, bind,
    Except.bind, toNat_length small, fits, if_false, readLabels_appendLabels, properties, pure,
    Except.pure]

theorem decodeNode_encodeNode (distinct : rec.labels.Nodup)
    (h : EncodableProps rec.props)
    : ∃ e, encodeNode rec = .ok e
      ∧ decodeNode e = .ok ⟨rec.labels.insertionSort (· ≤ ·), recProps rec.props⟩ :=
  decodeNode_encodeNode_of_length (length_lt_maxLen distinct) h

/-- An edge record with encodable properties is encoded, and decodes to its recorded form. -/
theorem decodeEdge_encodeEdge {rec : EdgeRecord} (h : EncodableProps rec.props)
    : ∃ e, encodeEdge rec = .ok e
      ∧ decodeEdge e = .ok ⟨rec.type, rec.src, rec.dst, recProps rec.props⟩ := by
  obtain ⟨body, encoded, read⟩ := props_appendProps h
  refine ⟨_, by simp only [encodeEdge, encoded]; rfl, ?_⟩
  have properties := read []
  rw [append_nil] at properties
  simp [decodeEdge, properties, Except.mapError, bind, Except.bind, pure, Except.pure]

mutual
theorem representable_of_encodable (v : Val) (h : encodable v = true) : representable v = true := by
  match v with
  | .list items =>
    simp only [encodable, representable, Bool.and_eq_true] at h ⊢
    exact ⟨h.1, representable_of_encodable_items items h.2⟩
  | .map entries =>
    simp only [encodable, representable, Bool.and_eq_true] at h ⊢
    exact ⟨h.1, representable_of_encodable_entries entries h.2⟩
  | .str _ => exact h
  | .null | .bool _ | .int _ | .goInt _ | .float _ | .node _ | .edge _ | .edges _ | .path _ _
  | .other _ => rfl

theorem representable_of_encodable_items (items : List Val) (h : encodableItems items = true)
    : representableItems items = true := by
  match items with
  | [] => rfl
  | v :: rest =>
    simp only [encodableItems, representableItems, Bool.and_eq_true] at h ⊢
    exact ⟨representable_of_encodable v h.1, representable_of_encodable_items rest h.2⟩

theorem representable_of_encodable_entries (entries : List (Str × Val))
    (h : encodableEntries entries = true)
    : representableEntries entries = true := by
  match entries with
  | [] => rfl
  | (k, v) :: rest =>
    simp only [encodableEntries, representableEntries, Bool.and_eq_true] at h ⊢
    exact ⟨⟨h.1.1, representable_of_encodable v h.1.2⟩,
      representable_of_encodable_entries rest h.2⟩
end

def RepresentableProps (p : OrderedMap UInt32 Val) : Prop :=
  ∀ k v, p.get k = some v → representable v = true

variable {b : Bytes} {k : UInt32}

theorem encodable_of_appendPropEntries {entries : List (UInt32 × Val)}
    (h : ∀ e ∈ entries, representable e.2 = true) (encoded : appendPropEntries entries = .ok b)
    : ∀ e ∈ entries, encodable e.2 = true := by
  induction entries generalizing b with
  | nil => simp
  | cons entry rest ih =>
    simp only [appendPropEntries, bind_eq_ok] at encoded
    obtain ⟨first, here, more, there, _⟩ := encoded
    intro e member
    rcases mem_cons.mp member with rfl | member
    · exact encodable_of_ok e.2 (h e (by simp)) here
    · exact ih (fun e inside => h e (by simp [inside])) there e member

theorem encodable_of_appendProps (h : RepresentableProps p) (encoded : appendProps p = .ok b)
    : EncodableProps p := by
  simp only [appendProps, bind_eq_ok] at encoded
  obtain ⟨body, inside, _⟩ := encoded
  intro k v found
  exact encodable_of_appendPropEntries
    (fun e member => h e.1 e.2 (get_eq_some_iff.mpr member)) inside (k, v)
    (get_eq_some_iff.mp found)

/-- A record that could be encoded held only values a record can hold. -/
theorem encodable_of_encodeNode (h : RepresentableProps rec.props)
    (encoded : encodeNode rec = .ok b)
    : EncodableProps rec.props := by
  simp only [encodeNode, bind_eq_ok] at encoded
  obtain ⟨body, inside, _⟩ := encoded
  exact encodable_of_appendProps h inside

theorem encodable_of_encodeEdge {rec : EdgeRecord} (h : RepresentableProps rec.props)
    (encoded : encodeEdge rec = .ok b)
    : EncodableProps rec.props := by
  simp only [encodeEdge, bind_eq_ok] at encoded
  obtain ⟨body, inside, _⟩ := encoded
  exact encodable_of_appendProps h inside

/-- The decoder produces no Go `int`. -/
theorem value_ne_goInt {depth : Nat} {b : Bytes} (read : value depth b = .ok (v, rest)) (i : Int64)
    : v ≠ .goInt i := by
  rintro rfl
  cases depth with
  | zero => cases read
  | succ depth =>
    cases b with
    | nil => cases read
    | cons tag more =>
      simp only [value] at read
      repeat' split at read
      all_goals simp [bind_eq_ok, pure, Except.pure] at read

theorem mapError_eq_ok {α : Type} {x : Except Err α} {f : Err → Err} {a : α}
    : x.mapError f = .ok a ↔ x = .ok a := by
  cases x <;> simp [Except.mapError]

theorem propEntry_ne_goInt {b : Bytes} {e : UInt32 × Val} (read : propEntry b = .ok (e, rest))
    (i : Int64)
    : e.2 ≠ .goInt i := by
  simp only [propEntry, bind_eq_ok, mapError_eq_ok] at read
  obtain ⟨⟨k, _⟩, _, ⟨v, _⟩, inner, done⟩ := read
  obtain rfl : (k.toUInt32, v) = e := (Prod.mk.inj (Except.ok.inj done)).1
  exact value_ne_goInt inner i

theorem readMany_all {α : Type} {item : Reader α} {P : α → Prop} {b : Bytes} {out : List α}
    (each : ∀ {b a rest}, item b = .ok (a, rest) → P a) (read : readMany item n b = .ok (out, rest))
    : ∀ a ∈ out, P a := by
  induction n generalizing b out rest with
  | zero =>
    obtain rfl : [] = out := (Prod.mk.inj (Except.ok.inj read)).1
    simp
  | succ n ih =>
    simp only [readMany, bind_eq_ok] at read
    obtain ⟨⟨a, _⟩, first, ⟨more, _⟩, others, done⟩ := read
    obtain rfl : a :: more = out := (Prod.mk.inj (Except.ok.inj done)).1
    simpa using ⟨each first, ih others⟩

theorem get_foldl_set {κ : Type} [LinearOrder κ] {entries : List (κ × Val)} {m : OrderedMap κ Val} {k : κ}
    (held : (entries.foldl (fun m e => m.set e.1 e.2) m).get k = some v)
    : m.get k = some v ∨ (k, v) ∈ entries := by
  induction entries generalizing m with
  | nil => exact Or.inl held
  | cons e rest ih =>
    rcases ih held with earlier | later
    · rw [get_set] at earlier
      split at earlier
      · rename_i same
        exact Or.inr (mem_cons.mpr (Or.inl (Prod.ext same (Option.some.inj earlier).symm)))
      · exact Or.inl earlier
    · exact Or.inr (mem_cons_of_mem e later)

theorem props_ne_goInt {b : Bytes} (read : props b = .ok (p, rest))
    (held : p.get k = some v) (i : Int64)
    : v ≠ .goInt i := by
  simp only [props, bind_eq_ok, mapError_eq_ok] at read
  obtain ⟨⟨n, _⟩, _, read⟩ := read
  split at read
  · cases read
  simp only [bind_eq_ok] at read
  obtain ⟨⟨entries, _⟩, all, done⟩ := read
  obtain rfl := (Prod.mk.inj (Except.ok.inj done)).1
  rcases get_foldl_set held with missing | member
  · cases missing
  · exact readMany_all (fun entry => propEntry_ne_goInt entry i) all (k, v) member

theorem decodeNode_ne_goInt {r : NodeRecord} (read : decodeNode b = .ok r)
    (held : r.props.get k = some v) (i : Int64)
    : v ≠ .goInt i := by
  simp only [decodeNode, bind_eq_ok, mapError_eq_ok] at read
  obtain ⟨_, _, read⟩ := read
  split at read
  · cases read
  simp only [bind_eq_ok] at read
  obtain ⟨_, _, ⟨p, _⟩, inner, done⟩ := read
  obtain rfl := Except.ok.inj done
  exact props_ne_goInt inner held i

theorem decodeEdge_ne_goInt {r : EdgeRecord} (read : decodeEdge b = .ok r)
    (held : r.props.get k = some v) (i : Int64)
    : v ≠ .goInt i := by
  simp only [decodeEdge, bind_eq_ok, mapError_eq_ok] at read
  obtain ⟨_, _, _, _, _, _, ⟨p, _⟩, inner, done⟩ := read
  obtain rfl := Except.ok.inj done
  exact props_ne_goInt inner held i

mutual
/-- A value and the form in which it comes back have one encoding. -/
theorem appendRecValue_recForm (v : Val) : appendRecValue (recForm v) = appendRecValue v := by
  cases v with
  | list items =>
    simp only [recForm, appendRecValue, appendRecValues_recItems items, length_recItems]
  | map entries =>
    have length : (recEntries entries).length = entries.length := by
      simpa using congrArg List.length (keys_recEntries entries)
    simp only [recForm, appendRecValue, appendRecEntries_recEntries entries, length]
  | _ => rfl

theorem appendRecValues_recItems (items : List Val)
    : appendRecValues (recItems items) = appendRecValues items := by
  cases items with
  | nil => rfl
  | cons v rest =>
    simp only [recItems, appendRecValues, appendRecValue_recForm v, appendRecValues_recItems rest]

theorem appendRecEntries_recEntries (entries : List (Str × Val))
    : appendRecEntries (recEntries entries) = appendRecEntries entries := by
  match entries with
  | [] => rfl
  | (k, v) :: rest =>
    simp only [recEntries, appendRecEntries, appendRecValue_recForm v,
      appendRecEntries_recEntries rest]
end

theorem appendProps_recProps (p : OrderedMap UInt32 Val) : appendProps (recProps p) = appendProps p := by
  have entries (l : List (UInt32 × Val))
      : appendPropEntries (l.map (fun e => (e.1, recForm e.2))) = appendPropEntries l := by
    induction l with
    | nil => rfl
    | cons e rest ih => simp only [map_cons, appendPropEntries, appendRecValue_recForm, ih]
  have listed : (recProps p).entries = p.entries.map (fun e => (e.1, recForm e.2)) := rfl
  simp only [appendProps, listed, entries, length_map]

end Intreccio.Codec
