import Intreccio.Foundation.Interaction
import Intreccio.Foundation.MapOrder
import Intreccio.Foundation.Merge
import Intreccio.Storage

/-! The bbolt adapter (`internal/storage/bolt/bolt.go`). A transaction buffers its writes and merges
them with the committed bucket on every read; an iterator keeps the writes buffered when it was
created and walks them next to a cursor.
-/

namespace Intreccio.Storage

open Kv Words Interaction

/-- The operations of bbolt that the adapter calls, on buckets `B` and cursors `C`. A cursor answers
with the entry it comes to, or with nothing at the end.
-/
structure Bbolt (B C : Type) where
  get : B → Bytes → Option Bytes
  put : B → Bytes → Bytes → Except Err B
  delete : B → Bytes → Except Err B
  cursor : B → C
  seek : C → Bytes → C × Option (Bytes × Bytes)
  next : C → C × Option (Bytes × Bytes)

/-- The limits of bbolt on what `Put` accepts, in bytes. -/
def maxKeySize : Nat := 32768

def maxValueSize : Nat := 2 ^ 31 - 2

/-- The write is within the limits of bbolt. -/
def Storable (k v : Bytes) : Prop := k.length ≤ maxKeySize ∧ v.length ≤ maxValueSize

instance (k v : Bytes) : Decidable (Storable k v) := inferInstanceAs (Decidable (_ ∧ _))

/-- A bucket is an ordered map on nonempty keys that accepts writes within the limits and refuses
others, and a cursor lists it in key order: `Seek` goes to the first entry from the key on and leaves
the others `ahead`.
-/
structure Bbolt.Lawful {B C : Type} (bolt : Bbolt B C) (contents : B → Store)
    (ahead : C → List (Bytes × Bytes)) : Prop where
  get : ∀ b k, bolt.get b k = (contents b).get k
  put
    : ∀ b k v, k ≠ [] → Storable k v → ∃ b', bolt.put b k v = .ok b' ∧ contents b' = (contents b).set k v
  refused : ∀ b k v, ¬ Storable k v → ∃ e, bolt.put b k v = .error e
  delete : ∀ b k, ∃ b', bolt.delete b k = .ok b' ∧ contents b' = (contents b).delete k
  seek
    : ∀ b k, (bolt.seek (bolt.cursor b) k).2 = ((contents b).select (fun key => k ≤ key)).head?
        ∧ ahead (bolt.seek (bolt.cursor b) k).1 = ((contents b).select (fun key => k ≤ key)).tail
  next : ∀ c, (bolt.next c).2 = (ahead c).head? ∧ ahead (bolt.next c).1 = (ahead c).tail

variable {B C : Type}

/-- A buffered write: no value is a deletion. -/
abbrev PendingEntry := Write Bytes Bytes

/-- An iterator: the cursor with the entry it is at, the buffered writes not passed yet, and the
merged entry it shows.
-/
structure Iterator (C : Type) where
  stem : Bytes
  cur : C
  ck : Option (Bytes × Bytes)
  pend : List PendingEntry
  current : Option (Bytes × Bytes)
  closed : Bool

namespace Iterator

/-- The entry of the cursor, as long as it has the prefix. -/
def cursorKey (i : Iterator C) : Option (Bytes × Bytes) :=
  i.ck.filter (fun e => under i.stem e.1)

def advance (bolt : Bbolt B C) (i : Iterator C) : Iterator C :=
  let (cur, ck) := bolt.next i.cur
  { i with cur, ck }

/-- Move to the next visible entry; the loop passes buffered deletions. -/
def settle (bolt : Bbolt B C) : List PendingEntry → Iterator C → Iterator C
  | [], i => { i with pend := [], current := i.cursorKey }
  | (pk, pv) :: rest, i =>
    if (i.cursorKey.map Prod.fst).any (· < pk) then
      { i with pend := (pk, pv) :: rest, current := i.cursorKey }
    else
      -- An entry of the cursor with the same key is shadowed.
      let i := if i.cursorKey.map Prod.fst = some pk then i.advance bolt else i
      match pv with
      | none => settle bolt rest i
      | some v => { i with pend := (pk, pv) :: rest, current := some (pk, v) }

def valid (i : Iterator C) : Bool := !i.closed && i.current.isSome

/-- The source that showed the current entry moves on. -/
def next (bolt : Bbolt B C) (i : Iterator C) : Iterator C :=
  if i.valid then
    if i.pend.head?.map Prod.fst = i.current.map Prod.fst then i.settle bolt i.pend.tail
    else (i.advance bolt).settle bolt i.pend
  else i

def key (i : Iterator C) : Option Bytes := i.current.map Prod.fst

def value (i : Iterator C) : Bytes := (i.current.map Prod.snd).getD []

def close (i : Iterator C) : Iterator C := { i with closed := true }

end Iterator

/-- A transaction on a bucket; a read-only one has no buffer. -/
structure BoltTxn (B : Type) where
  b : B
  pending : Option (OrderedMap Bytes (Option Bytes))
  closed : Bool

def errReadOnly : Err := .plain "bolt: write in a read-only transaction"

namespace BoltTxn

def get (bolt : Bbolt B C) (t : BoltTxn B) (key : Bytes) : Except Err Bytes :=
  match t.pending.bind (fun p => p.get key) with
  | some none => .error .notFound
  | some (some v) => .ok v
  | none =>
    match bolt.get t.b key with
    | none => .error .notFound
    | some v => .ok v

def set (t : BoltTxn B) (key val : Bytes) : Except Err Unit × BoltTxn B :=
  match t.pending with
  | none => (.error errReadOnly, t)
  | some p =>
    if t.closed then (.error errReadOnly, t)
    else if key = [] then (.error (.plain "bolt: empty key"), t)
    else (.ok (), { t with pending := some (p.set key (some val)) })

def delete (t : BoltTxn B) (key : Bytes) : Except Err Unit × BoltTxn B :=
  match t.pending with
  | none => (.error errReadOnly, t)
  | some p =>
    if t.closed then (.error errReadOnly, t)
    else (.ok (), { t with pending := some (p.set key none) })

/-- The buffered writes in range, collected in some order and sorted. -/
def snapshot (o : MapOrder) (t : BoltTxn B) (stem start : Bytes) : List PendingEntry :=
  let entries := (t.pending.map OrderedMap.entries).getD []
  ((o.range entries).filter (fun w => under stem w.1 && decide (start ≤ w.1))).insertionSort
    (fun a b => a.1 ≤ b.1)

def scanFrom (bolt : Bbolt B C) (o : MapOrder) (t : BoltTxn B) (stem start : Bytes) : Iterator C :=
  let start := if start < stem then stem else start
  let pend := t.snapshot o stem start
  let (cur, ck) := bolt.seek (bolt.cursor t.b) start
  Iterator.settle bolt pend ⟨stem, cur, ck, pend, none, false⟩

def scan (bolt : Bbolt B C) (o : MapOrder) (t : BoltTxn B) (stem : Bytes) : Iterator C :=
  t.scanFrom bolt o stem stem

end BoltTxn

/-- The calls of `storage.Txn` and `storage.Iterator`; an iterator is named by its number. -/
inductive Call where
  | get (key : Bytes)
  | set (key val : Bytes)
  | delete (key : Bytes)
  | scan (stem : Bytes)
  | scanFrom (stem start : Bytes)
  | valid (it : Nat)
  | next (it : Nat)
  | key (it : Nat)
  | value (it : Nat)
  | close (it : Nat)

def Call.Answer : Call → Type
  | .get _ => Except Err Bytes
  | .set _ _ | .delete _ => Except Err Unit
  | .scan _ | .scanFrom _ _ => Nat
  | .valid _ => Bool
  | .key _ => Option Bytes
  | .value _ => Bytes
  | .next _ | .close _ => Unit

/-- The interface a transaction function is written against. -/
def storageTxn : Interface := ⟨Call, Call.Answer⟩

/-- A transaction with the iterators it has opened, and the orders of its map loops. -/
structure Session (B C : Type) where
  txn : BoltTxn B
  its : List (Iterator C)
  orders : MapOrder

namespace Session

def opened (s : Session B C) (i : Iterator C) : Nat × Session B C :=
  (s.its.length, { s with its := s.its ++ [i], orders := s.orders.sub 1 })

def changed (s : Session B C) (it : Nat) (f : Iterator C → Iterator C) : Unit × Session B C :=
  ((), { s with its := s.its.modify it f })

end Session

def boltMachine (bolt : Bbolt B C) : Machine storageTxn (Session B C) where
  step
    | .get key, s => (s.txn.get bolt key, s)
    | .set key val, s => ((s.txn.set key val).1, { s with txn := (s.txn.set key val).2 })
    | .delete key, s => ((s.txn.delete key).1, { s with txn := (s.txn.delete key).2 })
    | .scan stem, s => s.opened (s.txn.scan bolt (s.orders.sub 0) stem)
    | .scanFrom stem start, s => s.opened (s.txn.scanFrom bolt (s.orders.sub 0) stem start)
    | .valid it, s => ((s.its[it]?.map Iterator.valid).getD false, s)
    | .next it, s => s.changed it (Iterator.next bolt)
    | .key it, s => ((s.its[it]?.map Iterator.key).getD none, s)
    | .value it, s => ((s.its[it]?.map Iterator.value).getD [], s)
    | .close it, s => s.changed it Iterator.close

def writeOut (bolt : Bbolt B C) (b : B) (k : Bytes) : Option Bytes → Except Err B
  | none => bolt.delete b k
  | some v => bolt.put b k v

/-- The buffered writes, key by key, into the bucket. -/
def commit (bolt : Bbolt B C) (p : OrderedMap Bytes (Option Bytes)) : List Bytes → B → Except Err B
  | [], b => .ok b
  | k :: rest, b =>
    match writeOut bolt b k (p.get k).join with
    | .error e => .error (.because "bolt: commit" e)
    | .ok b => commit bolt p rest b

variable {γ : Type}

/-- `Store.Update`: what the function returned, what it left in captured variables, and the bucket.
bbolt discards the transaction when an error is returned.
-/
def update (bolt : Bbolt B C) (o : MapOrder) (fn : Client storageTxn (Except Err Unit × γ)) (b : B)
    : (Except Err Unit × γ) × B :=
  let ((result, captured), s) := fn.run (boltMachine bolt) ⟨⟨b, some .empty, false⟩, [], o.sub 0⟩
  match result with
  | .error e => ((.error e, captured), b)
  | .ok _ =>
    let pending := s.txn.pending.getD .empty
    let keys := (((o.sub 1).range pending.entries).map Prod.fst).insertionSort (· ≤ ·)
    match commit bolt pending keys b with
    | .error e => ((.error e, captured), b)
    | .ok b' => ((.ok (), captured), b')

end Intreccio.Storage
