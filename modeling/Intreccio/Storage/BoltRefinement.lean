import Intreccio.Storage.Bolt

/-! The bbolt adapter refines an ordered map: inside `Update` every call answers as the committed map
overlaid with the writes so far, an iterator lists the map as it was when it was created, and a
transaction that returns nil commits exactly that map. `Set` does not check the limits of bbolt, so a
write beyond them is seen inside the transaction and makes the commit fail.
-/

namespace Intreccio.Storage

open Kv Words Interaction List OrderedMap

variable {B C γ : Type}

/-- An iterator of the reference: the entries not passed yet. -/
structure Listing where
  rest : List (Bytes × Bytes)
  closed : Bool

namespace Listing

/-- The keys of the map with the prefix, from `start` on, in order. -/
def ofScan (m : Store) (stem start : Bytes) : Listing :=
  ⟨m.select (fun k => under stem k && decide (start ≤ k)), false⟩

def valid (l : Listing) : Bool := !l.closed && l.rest.head?.isSome

def next (l : Listing) : Listing := if l.valid then { l with rest := l.rest.tail } else l

def key (l : Listing) : Option Bytes := l.rest.head?.map Prod.fst

def value (l : Listing) : Bytes := (l.rest.head?.map Prod.snd).getD []

def close (l : Listing) : Listing := { l with closed := true }

end Listing

/-- The reference map, the listings taken of it, and whether all that was set is within the limits. -/
structure Reference where
  map : Store
  its : List Listing
  fits : Bool

namespace Reference

def opened (r : Reference) (l : Listing) : Nat × Reference := (r.its.length, { r with its := r.its ++ [l] })

def changed (r : Reference) (it : Nat) (f : Listing → Listing) : Unit × Reference :=
  ((), { r with its := r.its.modify it f })

end Reference

def referenceMachine : Machine storageTxn Reference where
  step
    | .get key, r => ((r.map.get key).elim (.error .notFound) .ok, r)
    | .set key val, r =>
      if key = [] then (.error (.plain "bolt: empty key"), r)
      else (.ok (), { r with map := r.map.set key val, fits := r.fits && Storable key val })
    | .delete key, r => (.ok (), { r with map := r.map.delete key })
    | .scan stem, r => r.opened (.ofScan r.map stem stem)
    | .scanFrom stem start, r => r.opened (.ofScan r.map stem start)
    | .valid it, r => ((r.its[it]?.map Listing.valid).getD false, r)
    | .next it, r => r.changed it Listing.next
    | .key it, r => ((r.its[it]?.map Listing.key).getD none, r)
    | .value it, r => ((r.its[it]?.map Listing.value).getD [], r)
    | .close it, r => r.changed it Listing.close

/-- A transaction on the map: its writes stay when it returns nil, and are dropped otherwise. -/
def referenceUpdate (fn : Client storageTxn (Except Err Unit × γ)) (m : Store)
    : (Except Err Unit × γ) × Store :=
  let ((result, captured), r) := fn.run referenceMachine ⟨m, [], true⟩
  match result with
  | .error e => ((.error e, captured), m)
  | .ok _ => ((.ok (), captured), r.map)

/-- Every write that the function makes on the map is within the limits. -/
def SetsStorable (fn : Client storageTxn (Except Err Unit × γ)) (m : Store) : Prop :=
  (fn.run referenceMachine ⟨m, [], true⟩).2.fits = true

variable {i : Iterator C} {l : Listing}

section Iterators

variable {bolt : Bbolt B C} {contents : B → Store} {ahead : C → List (Bytes × Bytes)}

/-- The entries of the cursor, the one it is at included. -/
def Iterator.base (ahead : C → List (Bytes × Bytes)) (i : Iterator C) : List (Bytes × Bytes) :=
  match i.ck with
  | none => []
  | some e => e :: ahead i.cur

def Iterator.visible (ahead : C → List (Bytes × Bytes)) (i : Iterator C) : List (Bytes × Bytes) :=
  (i.base ahead).takeWhile (fun e => under i.stem e.1)

theorem cursorKey_eq (i : Iterator C) : i.cursorKey = (i.visible ahead).head? := by
  cases at' : i.ck with
  | none => simp [Iterator.cursorKey, Iterator.visible, Iterator.base, at']
  | some e =>
    cases inside : under i.stem e.1 with
    | true => simp [Iterator.cursorKey, Iterator.visible, Iterator.base, at', inside]
    | false => simp [Iterator.cursorKey, Iterator.visible, Iterator.base, at', inside]

theorem base_advance (lawful : bolt.Lawful contents ahead) (i : Iterator C)
    : (i.advance bolt).base ahead = ahead i.cur := by
  obtain ⟨entry, rest⟩ := lawful.next i.cur
  simp only [Iterator.advance, Iterator.base, entry, rest]
  cases ahead i.cur <;> rfl

theorem visible_advance (lawful : bolt.Lawful contents ahead) {e : Bytes × Bytes}
    {rest : List (Bytes × Bytes)} (here : i.visible ahead = e :: rest)
    : (i.advance bolt).visible ahead = rest := by
  have moved := base_advance lawful i
  have stem : (i.advance bolt).stem = i.stem := rfl
  rw [Iterator.visible, moved, stem]
  cases at' : i.ck with
  | none => simp [Iterator.visible, Iterator.base, at'] at here
  | some e' =>
    simp only [Iterator.visible, Iterator.base, at', takeWhile_cons] at here
    split at here
    · exact (List.cons.inj here).2
    · cases here

/-- The cursor and the buffered writes are in strictly increasing key order. -/
structure Iterator.Ordered (ahead : C → List (Bytes × Bytes)) (i : Iterator C) (pend : List PendingEntry)
    : Prop where
  base : (i.base ahead).Pairwise (fun a b => a.1 < b.1)
  pend : pend.Pairwise (fun a b => a.1 < b.1)

variable {pend : List PendingEntry}

theorem Iterator.Ordered.visible (ordered : i.Ordered ahead pend)
    : (i.visible ahead).Pairwise (fun a b => a.1 < b.1) :=
  ordered.base.sublist (takeWhile_sublist _)

theorem Iterator.Ordered.advance (lawful : bolt.Lawful contents ahead) (ordered : i.Ordered ahead pend)
    (present : i.ck ≠ none)
    : (i.advance bolt).Ordered ahead pend := by
  refine ⟨?_, ordered.pend⟩
  rw [base_advance lawful]
  obtain ⟨e, at'⟩ := Option.ne_none_iff_exists'.mp present
  have base := ordered.base
  simp only [Iterator.base, at'] at base
  exact (pairwise_cons.mp base).2

/-- Where an iterator stands after `settle`: at the end, at the cursor's entry, or at a buffered
write, and then the cursor is past its key.
-/
inductive Iterator.Settled (ahead : C → List (Bytes × Bytes)) (i : Iterator C) : Prop where
  | ended (cursor : i.visible ahead = []) (pend : i.pend = []) (current : i.current = none)
  | cursor {e : Bytes × Bytes} {rest : List (Bytes × Bytes)} (here : i.visible ahead = e :: rest)
      (below : ∀ w ∈ i.pend.head?, e.1 < w.1) (current : i.current = some e)
  | pending {k v : Bytes} {rest : List PendingEntry} (here : i.pend = (k, some v) :: rest)
      (above : ∀ e ∈ (i.visible ahead).head?, k < e.1) (current : i.current = some (k, v))

/-- The entries the iterator has still to show. -/
def Iterator.left (ahead : C → List (Bytes × Bytes)) (i : Iterator C) : List (Bytes × Bytes) :=
  merge (i.visible ahead) i.pend

theorem Iterator.Settled.current (settled : i.Settled ahead) : i.current = (i.left ahead).head? := by
  rw [Iterator.left]
  cases settled with
  | ended cursor pend current => simp [cursor, pend, current]
  | cursor here below current => rw [here, merge_below below, current, head?_cons]
  | pending here above current => rw [here, merge_write above, current]; rfl

/-- What `settle` keeps and reaches. -/
structure Settles (ahead : C → List (Bytes × Bytes)) (i j : Iterator C) (pend : List PendingEntry) : Prop where
  settled : j.Settled ahead
  left : j.left ahead = merge (i.visible ahead) pend
  ordered : j.Ordered ahead j.pend
  closed : j.closed = i.closed

/-- A buffered deletion below the cursor is passed. -/
theorem Settles.passing {i j : Iterator C} {k : Bytes} {rest : List PendingEntry}
    (settles : Settles ahead i j rest) (above : ∀ e ∈ (i.visible ahead).head?, k < e.1)
    : Settles ahead i j ((k, none) :: rest) := by
  refine { settles with left := settles.left.trans ?_ }
  rw [merge_write above]
  rfl

/-- A buffered value below the cursor is shown. -/
theorem settles_value {k v : Bytes} {rest : List PendingEntry}
    (ordered : i.Ordered ahead ((k, some v) :: rest)) (above : ∀ e ∈ (i.visible ahead).head?, k < e.1)
    : Settles ahead i { i with pend := (k, some v) :: rest, current := some (k, v) }
        ((k, some v) :: rest) :=
  ⟨.pending rfl above rfl, rfl, ⟨ordered.base, ordered.pend⟩, rfl⟩

theorem settle_cons (bolt : Bbolt B C) (i : Iterator C) (pk : Bytes) (pv : Option Bytes)
    (rest : List PendingEntry)
    : i.settle bolt ((pk, pv) :: rest)
      = if (i.cursorKey.map Prod.fst).any (· < pk) then
          { i with pend := (pk, pv) :: rest, current := i.cursorKey }
        else
          let j := if i.cursorKey.map Prod.fst = some pk then i.advance bolt else i
          pv.elim (j.settle bolt rest)
            (fun v => { j with pend := (pk, pv) :: rest, current := some (pk, v) }) := by
  cases pv <;> rfl

/-- `settle` reaches the first entry of the merge.
Witness: induction on the buffered writes; before each one the cursor is moved past its key.
-/
theorem settles_settle (lawful : bolt.Lawful contents ahead) (ordered : i.Ordered ahead pend)
    : Settles ahead i (i.settle bolt pend) pend := by
  induction pend generalizing i with
  | nil =>
    have shown : i.cursorKey = (i.visible ahead).head? := cursorKey_eq i
    refine ⟨?_, rfl, ⟨ordered.base, ordered.pend⟩, rfl⟩
    cases here : i.visible ahead with
    | nil => exact .ended here rfl (shown.trans (by rw [here]; rfl))
    | cons e rest => exact .cursor here (by simp [Iterator.settle]) (shown.trans (by rw [here]; rfl))
  | cons w rest ih =>
    obtain ⟨pk, pv⟩ := w
    have shown : i.cursorKey = (i.visible ahead).head? := cursorKey_eq i
    have write {j : Iterator C} (ordered : j.Ordered ahead ((pk, pv) :: rest))
        (above : ∀ e ∈ (j.visible ahead).head?, pk < e.1)
        : Settles ahead j
            (pv.elim (j.settle bolt rest)
              (fun v => { j with pend := (pk, pv) :: rest, current := some (pk, v) }))
            ((pk, pv) :: rest) := by
      cases pv with
      | none => exact (ih ⟨ordered.base, (pairwise_cons.mp ordered.pend).2⟩).passing above
      | some v => exact settles_value ordered above
    rw [settle_cons]
    cases here : i.visible ahead with
    | nil =>
      rw [here, head?_nil] at shown
      rw [shown, if_neg (by simp), if_neg (by simp)]
      exact write ordered (by simp [here])
    | cons e more =>
      rw [here, head?_cons] at shown
      rw [shown]
      rcases lt_trichotomy e.1 pk with below | same | past
      · rw [if_pos (by simpa using below)]
        exact ⟨.cursor here (by simpa using below) rfl, rfl, ⟨ordered.base, ordered.pend⟩, rfl⟩
      · -- The cursor's entry is shadowed: it is passed first.
        obtain ⟨k, v⟩ := e
        obtain rfl : k = pk := same
        rw [if_neg (by simp), if_pos (show Option.map Prod.fst (some (k, v)) = some k from rfl)]
        have present : i.ck ≠ none := by
          intro absent
          simp [Iterator.visible, Iterator.base, absent] at here
        have visible := visible_advance lawful here
        have above : ∀ e ∈ more.head?, k < e.1 := fun e first =>
          (pairwise_cons.mp (here ▸ ordered.visible)).1 e (mem_of_mem_head? first)
        have settles := write (ordered.advance lawful present) (visible ▸ above)
        refine { settles with left := settles.left.trans ?_ }
        rw [visible, here, merge_shadowed above]
      · rw [if_neg (by simpa using past.le), if_neg (by simpa using past.ne')]
        exact write ordered (by simpa [here] using past)

structure Shows (ahead : C → List (Bytes × Bytes)) (i : Iterator C) (l : Listing) : Prop where
  settled : i.Settled ahead
  ordered : i.Ordered ahead i.pend
  rest : l.rest = i.left ahead
  closed : l.closed = i.closed

theorem Settles.shows {i j : Iterator C} (settles : Settles ahead i j pend)
    (rest : l.rest = merge (i.visible ahead) pend) (closed : l.closed = i.closed)
    : Shows ahead j l :=
  ⟨settles.settled, settles.ordered, rest.trans settles.left.symm, closed.trans settles.closed.symm⟩

theorem Shows.current (shows : Shows ahead i l) : i.current = l.rest.head? := by
  rw [shows.rest, shows.settled.current]

theorem Shows.valid (shows : Shows ahead i l) : i.valid = l.valid := by
  rw [Iterator.valid, Listing.valid, shows.current, shows.closed]

theorem Shows.key (shows : Shows ahead i l) : i.key = l.key := by
  rw [Iterator.key, Listing.key, shows.current]

theorem Shows.value (shows : Shows ahead i l) : i.value = l.value := by
  rw [Iterator.value, Listing.value, shows.current]

theorem Shows.next (lawful : bolt.Lawful contents ahead) (shows : Shows ahead i l)
    : Shows ahead (i.next bolt) l.next := by
  rw [Iterator.next, Listing.next, ← shows.valid]
  split
  case isFalse => exact shows
  case isTrue valid =>
    have rest := shows.rest
    rw [Iterator.left] at rest
    cases shows.settled with
    | ended cursor pend current => simp [Iterator.valid, current] at valid
    | cursor here below current =>
      have apart : i.pend.head?.map Prod.fst ≠ i.current.map Prod.fst := by
        rw [current]
        intro same
        obtain ⟨w, first, key⟩ := Option.map_eq_some_iff.mp same
        exact (below w first).ne' key
      have present : i.ck ≠ none := by
        intro absent
        simp [Iterator.visible, Iterator.base, absent] at here
      rw [if_neg apart]
      refine (settles_settle lawful (shows.ordered.advance lawful present)).shows ?_ shows.closed
      rw [here, merge_below below] at rest
      rw [rest, visible_advance lawful here, tail_cons]
    | pending here above current =>
      have pend := (pairwise_cons.mp (here ▸ shows.ordered.pend)).2
      rw [here, current, head?_cons, Option.map_some, Option.map_some, if_pos rfl, tail_cons]
      refine (settles_settle lawful ⟨shows.ordered.base, pend⟩).shows ?_ shows.closed
      rw [here, merge_write above] at rest
      rw [rest]
      rfl

theorem Shows.close (shows : Shows ahead i l) : Shows ahead i.close l.close := by
  have settled : i.close.Settled ahead := by
    cases shows.settled with
    | ended cursor pend current => exact .ended cursor pend current
    | cursor here below current => exact .cursor here below current
    | pending here above current => exact .pending here above current
  exact ⟨settled, ⟨shows.ordered.base, shows.ordered.pend⟩, shows.rest, rfl⟩

end Iterators

/-- Between a prefix and a key that has it, every key has it. -/
theorem under_of_between {stem low high : Bytes} (above : stem ≤ low) (below : low ≤ high)
    (inside : under stem high = true)
    : under stem low = true := by
  obtain ⟨more, rfl⟩ := isPrefixOf_iff_prefix.mp inside
  rw [under, isPrefixOf_iff_prefix]
  by_contra apart
  have less : stem < low := lt_of_le_of_ne above (fun same => apart (same ▸ prefix_rfl))
  have past := append_lt_append_of_lt more [] less apart
  rw [append_nil] at past
  exact absurd below (not_le_of_gt past)

def scanStart (stem start : Bytes) : Bytes := if start < stem then stem else start

theorem stem_le_scanStart (stem start : Bytes) : stem ≤ scanStart stem start := by
  unfold scanStart
  split
  case isTrue => exact le_rfl
  case isFalse above => exact not_lt.mp above

theorem inRange_scanStart (stem start key : Bytes)
    : (under stem key && decide (scanStart stem start ≤ key)) = (under stem key && decide (start ≤ key)) := by
  cases inside : under stem key with
  | false => rfl
  | true =>
    have above := stem_le inside
    unfold scanStart
    split
    case isTrue below => simp [above, below.le.trans above]
    case isFalse => rfl

/-- From a key at or after the prefix, the keys that have the prefix come first. -/
theorem takeWhile_under (m : Store) {stem start : Bytes} (after : stem ≤ start)
    : (m.select (fun k => start ≤ k)).takeWhile (fun e => under stem e.1)
      = m.select (fun k => under stem k && decide (start ≤ k)) := by
  rw [takeWhile_eq_filter, OrderedMap.select, OrderedMap.select, filter_filter]
  refine (m.select_sorted (fun k => start ≤ k)).imp_of_mem (fun {a b} early _ below inside => ?_)
  have from' : start ≤ a.1 := by simpa using (mem_select.mp early).2
  exact under_of_between (after.trans from') below.le inside

variable {bolt : Bbolt B C} {contents : B → Store} {ahead : C → List (Bytes × Bytes)}

/-- The snapshot of the buffered writes, whatever order they were visited in. -/
theorem snapshot_eq (o : MapOrder) {t : BoltTxn B} {p : OrderedMap Bytes (Option Bytes)}
    (buffered : t.pending = some p) (stem start : Bytes)
    : t.snapshot o stem start = p.entries.filter (fun w => under stem w.1 && decide (start ≤ w.1)) := by
  rw [BoltTxn.snapshot, buffered]
  exact (p.restrict (fun k => under stem k && decide (start ≤ k))).sort_perm ((o.range_perm _).filter _)

/-- A new iterator lists the committed map overlaid with the writes so far. -/
theorem shows_scanFrom (lawful : bolt.Lawful contents ahead) (o : MapOrder) {t : BoltTxn B}
    {p : OrderedMap Bytes (Option Bytes)} (buffered : t.pending = some p) (stem start : Bytes)
    : Shows ahead (t.scanFrom bolt o stem start)
        (.ofScan ((contents t.b).overwrite p.entries) stem start) := by
  set first := scanStart stem start with chosen
  set i : Iterator C := ⟨stem, (bolt.seek (bolt.cursor t.b) first).1, (bolt.seek (bolt.cursor t.b) first).2,
    t.snapshot o stem first, none, false⟩ with made
  have opened : t.scanFrom bolt o stem start = i.settle bolt (t.snapshot o stem first) := rfl
  obtain ⟨entry, others⟩ := lawful.seek t.b first
  have base : i.base ahead = (contents t.b).select (fun key => first ≤ key) := by
    rw [made, Iterator.base, entry, others]
    cases (contents t.b).select (fun key => first ≤ key) <;> rfl
  have visible : i.visible ahead = (contents t.b).select (fun k => under stem k && decide (first ≤ k)) := by
    rw [Iterator.visible, base]
    exact takeWhile_under _ (stem_le_scanStart stem start)
  have ordered : i.Ordered ahead (t.snapshot o stem first) := by
    refine ⟨base ▸ select_sorted _ _, ?_⟩
    rw [snapshot_eq o buffered]
    exact p.sorted.filter _
  rw [opened]
  refine (settles_settle lawful ordered).shows ?_ rfl
  rw [visible, snapshot_eq o buffered, ← select_overwrite _ _ p.sorted]
  simp only [Listing.ofScan, chosen, inRange_scanStart]

/-- The session is open on the bucket with the writes `p` buffered, the reference map is the bucket
overlaid with them, and the iterators show the listings.
-/
structure Represents (contents : B → Store) (ahead : C → List (Bytes × Bytes)) (b : B)
    (p : OrderedMap Bytes (Option Bytes)) (s : Session B C) (r : Reference) : Prop where
  txn : s.txn = ⟨b, some p, false⟩
  named : ∀ v, p.get [] ≠ some (some v)
  fits : r.fits = true → ∀ k v, p.get k = some (some v) → Storable k v
  map : r.map = (contents b).overwrite p.entries
  its : List.Forall₂ (Shows ahead) s.its r.its

variable {b : B} {p : OrderedMap Bytes (Option Bytes)} {s : Session B C} {r : Reference}

theorem Represents.opened (represents : Represents contents ahead b p s r) (shows : Shows ahead i l)
    : (s.opened i).1 = (r.opened l).1 ∧ Represents contents ahead b p (s.opened i).2 (r.opened l).2 :=
  ⟨represents.its.length_eq, { represents with
    its := rel_append represents.its (.cons shows .nil) }⟩

theorem Represents.asked (represents : Represents contents ahead b p s r) {α : Type}
    {f : Iterator C → α} {g : Listing → α} (same : ∀ i l, Shows ahead i l → f i = g l) (it : Nat)
    : s.its[it]?.map f = r.its[it]?.map g := by
  have lists {is : List (Iterator C)} {ls : List Listing} (shown : List.Forall₂ (Shows ahead) is ls)
      : is.map f = ls.map g := by
    induction shown with
    | nil => rfl
    | cons shows _ ih => rw [map_cons, map_cons, same _ _ shows, ih]
  rw [← getElem?_map, ← getElem?_map, lists represents.its]

theorem Represents.changed (represents : Represents contents ahead b p s r)
    {f : Iterator C → Iterator C} {g : Listing → Listing}
    (keeps : ∀ i l, Shows ahead i l → Shows ahead (f i) (g l)) (it : Nat)
    : Represents contents ahead b p (s.changed it f).2 (r.changed it g).2 := by
  have lists {is : List (Iterator C)} {ls : List Listing} (shown : List.Forall₂ (Shows ahead) is ls)
      (it : Nat) : List.Forall₂ (Shows ahead) (is.modify it f) (ls.modify it g) := by
    induction shown generalizing it with
    | nil => cases it <;> exact .nil
    | cons shows rest ih =>
      cases it with
      | zero => exact .cons (keeps _ _ shows) rest
      | succ it => exact .cons shows (ih it)
  exact { represents with its := lists represents.its it }

theorem Represents.written (represents : Represents contents ahead b p s r) (k : Bytes) (v : Option Bytes)
    (named : k = [] → v = none) {fits : Bool}
    (storable : fits = true → r.fits = true ∧ ∀ u, v = some u → Storable k u)
    : Represents contents ahead b (p.set k v) { s with txn := ⟨b, some (p.set k v), false⟩ }
        { r with map := r.map.put (k, v), fits := fits } where
  txn := rfl
  fits fits' k' u := by
    obtain ⟨before, here⟩ := storable fits'
    rw [get_set]
    split
    case isTrue same =>
      intro found
      exact same ▸ here u (Option.some.inj found)
    case isFalse => exact represents.fits before k' u
  named u := by
    rw [get_set]
    split
    case isTrue here => simp [named here.symm]
    case isFalse => exact represents.named u
  map := by
    rw [overwrite_set, represents.map]
  its := represents.its

theorem get_eq (lawful : bolt.Lawful contents ahead) (b : B) (p : OrderedMap Bytes (Option Bytes))
    (key : Bytes)
    : (BoltTxn.get bolt ⟨b, some p, false⟩ key)
      = (((contents b).overwrite p.entries).get key).elim (.error .notFound) .ok := by
  rw [get_overwrite_entries, BoltTxn.get, Option.bind_some]
  rcases p.get key with _ | _ | v
  · rw [lawful.get]
    cases (contents b).get key <;> rfl
  · rfl
  · rfl

/-- The adapter simulates the ordered map, call by call. -/
theorem simulates (lawful : bolt.Lawful contents ahead) (b : B)
    : Simulation (boltMachine bolt) referenceMachine
        (fun s r => ∃ p, Represents contents ahead b p s r) := by
  have step (call : Call) (s : Session B C) (r : Reference)
      (related : ∃ p, Represents contents ahead b p s r)
      : ((boltMachine bolt).step call s).1 = (referenceMachine.step call r).1
        ∧ ∃ p, Represents contents ahead b p ((boltMachine bolt).step call s).2
          (referenceMachine.step call r).2 := by
    obtain ⟨p, represents⟩ := related
    have txn := represents.txn
    have scanned (stem start : Bytes) (o : MapOrder) : Shows ahead (s.txn.scanFrom bolt o stem start)
        (.ofScan r.map stem start) := by
      have shows := shows_scanFrom lawful o (t := s.txn) (by rw [txn]) stem start
      rwa [represents.map, txn] at *
    cases call with
    | get key =>
      refine ⟨?_, p, represents⟩
      show s.txn.get bolt key = (r.map.get key).elim (.error .notFound) .ok
      rw [txn, represents.map, get_eq lawful]
    | set key val =>
      by_cases empty : key = []
      · have refused : s.txn.set key val = (.error (.plain "bolt: empty key"), s.txn) := by
          simp [BoltTxn.set, txn, empty]
        have ignored : referenceMachine.step (.set key val) r = (.error (.plain "bolt: empty key"), r) :=
          if_pos empty
        refine ⟨?_, p, ?_⟩
        · rw [ignored]
          exact congrArg Prod.fst refused
        · rw [ignored]
          exact { represents with txn := (congrArg Prod.snd refused).trans txn }
      · have buffered : s.txn.set key val = (.ok (), ⟨b, some (p.set key (some val)), false⟩) := by
          simp [BoltTxn.set, txn, empty]
        have stored : referenceMachine.step (.set key val) r
            = (.ok (), { r with map := r.map.set key val, fits := r.fits && Storable key val }) :=
          if_neg empty
        refine ⟨?_, p.set key (some val), ?_⟩
        · rw [stored]
          exact congrArg Prod.fst buffered
        · rw [stored]
          have storable : (r.fits && decide (Storable key val)) = true
              → r.fits = true ∧ ∀ u, some val = some u → Storable key u := by
            rw [Bool.and_eq_true, decide_eq_true_eq]
            rintro ⟨before, here⟩
            refine ⟨before, ?_⟩
            rintro u ⟨⟩
            exact here
          exact { represents.written key (some val) (fun here => absurd here empty) storable with
            txn := congrArg Prod.snd buffered }
    | delete key =>
      have buffered : s.txn.delete key = (.ok (), ⟨b, some (p.set key none), false⟩) := by
        simp [BoltTxn.delete, txn]
      refine ⟨congrArg Prod.fst buffered, p.set key none, ?_⟩
      exact { represents.written key none (fun _ => rfl) (fun fits => ⟨fits, nofun⟩) with
        txn := congrArg Prod.snd buffered }
    | scan stem =>
      obtain ⟨handle, after⟩ := represents.opened (scanned stem stem (s.orders.sub 0))
      exact ⟨handle, p, after⟩
    | scanFrom stem start =>
      obtain ⟨handle, after⟩ := represents.opened (scanned stem start (s.orders.sub 0))
      exact ⟨handle, p, after⟩
    | valid it => exact ⟨congrArg (·.getD false) (represents.asked (fun _ _ => Shows.valid) it), p, represents⟩
    | next it => exact ⟨rfl, p, represents.changed (fun _ _ => Shows.next lawful) it⟩
    | key it => exact ⟨congrArg (·.getD none) (represents.asked (fun _ _ => Shows.key) it), p, represents⟩
    | value it => exact ⟨congrArg (·.getD []) (represents.asked (fun _ _ => Shows.value) it), p, represents⟩
    | close it => exact ⟨rfl, p, represents.changed (fun _ _ => Shows.close) it⟩
  exact ⟨fun call s r related => (step call s r related).1, fun call s r related => (step call s r related).2⟩

/-- The commit of buffered writes within the limits makes exactly these writes. -/
theorem commit_eq (lawful : bolt.Lawful contents ahead) (named : ∀ v, p.get [] ≠ some (some v))
    (storable : ∀ k v, p.get k = some (some v) → Storable k v) (keys : List Bytes) (b : B)
    : ∃ b', commit bolt p keys b = .ok b'
      ∧ contents b' = (contents b).overwrite (keys.map (fun k => (k, (p.get k).join))) := by
  induction keys generalizing b with
  | nil => exact ⟨b, rfl, rfl⟩
  | cons k rest ih =>
    have written : ∃ mid, writeOut bolt b k (p.get k).join = .ok mid
        ∧ contents mid = (contents b).put (k, (p.get k).join) := by
      cases value : (p.get k).join with
      | none => exact lawful.delete b k
      | some v =>
        have buffered := Option.join_eq_some_iff.mp value
        have present : k ≠ [] := by
          rintro rfl
          exact named v buffered
        exact lawful.put b k v present (storable k v buffered)
    obtain ⟨mid, stored, contents'⟩ := written
    obtain ⟨b', committed, after⟩ := ih mid
    refine ⟨b', ?_, ?_⟩
    · simp only [commit, stored, committed]
    · rw [after, contents', map_cons, overwrite_cons]

/-- The keys in order, each with its buffered value, are the entries of the buffer. -/
theorem sorted_keys (o : MapOrder) (p : OrderedMap Bytes (Option Bytes))
    : ((((o.range p.entries).map Prod.fst).insertionSort (· ≤ ·)).map (fun k => (k, (p.get k).join)))
      = p.entries := by
  have keys : ((o.range p.entries).map Prod.fst).insertionSort (· ≤ ·) = p.entries.map Prod.fst := by
    have perm := (perm_insertionSort (· ≤ ·) ((o.range p.entries).map Prod.fst)).trans
      ((o.range_perm p.entries).map Prod.fst)
    refine perm.eq_of_pairwise (fun a b _ _ => le_antisymm) (pairwise_insertionSort _ _) ?_
    exact pairwise_map.mpr (p.sorted.imp le_of_lt)
  rw [keys, map_map]
  refine (map_congr_left (fun e member => ?_)).trans (map_id _)
  have value : p.get e.1 = some e.2 := get_eq_some_iff.mpr member
  simp [value]

/-- `Update` refines the transaction on the ordered map: the function gets the same answers to every
call, whatever it sets; where an error is returned the bucket is as before; and where all that it sets is
within the limits, `Update` returns what the function does and the bucket holds the reference map.
-/
theorem update_refines (lawful : bolt.Lawful contents ahead) (o : MapOrder)
    (fn : Client storageTxn (Except Err Unit × γ)) (b : B)
    : (update bolt o fn b).1.2 = (referenceUpdate fn (contents b)).1.2
      ∧ ((update bolt o fn b).1.1 ≠ .ok () → (update bolt o fn b).2 = b)
      ∧ (SetsStorable fn (contents b) → (update bolt o fn b).1 = (referenceUpdate fn (contents b)).1
        ∧ contents (update bolt o fn b).2 = (referenceUpdate fn (contents b)).2) := by
  have start : Represents contents ahead b .empty
      (⟨⟨b, some .empty, false⟩, [], o.sub 0⟩ : Session B C) ⟨contents b, [], true⟩ :=
    ⟨rfl, by simp, by simp, rfl, .nil⟩
  obtain ⟨same, p, ended⟩ := (simulates lawful b).run fn ⟨_, start⟩
  rcases ran : fn.run (boltMachine bolt) ⟨⟨b, some .empty, false⟩, [], o.sub 0⟩ with ⟨⟨result, captured⟩, s⟩
  rcases expected : fn.run referenceMachine ⟨contents b, [], true⟩ with ⟨answer, r⟩
  rw [ran, expected] at same ended
  obtain rfl : answer = (result, captured) := same.symm
  rw [SetsStorable, expected]
  cases result with
  | error e => simp [update, referenceUpdate, ran, expected]
  | ok u =>
    have buffered : s.txn.pending = some p := congrArg BoltTxn.pending ended.txn
    simp only [update, referenceUpdate, ran, expected, buffered, Option.getD_some]
    refine ⟨?_, ?_, fun fits => ?_⟩
    · split <;> rfl
    · split
      · exact fun _ => rfl
      · exact fun refused => absurd rfl refused
    · obtain ⟨b', committed, after⟩ := commit_eq lawful ended.named (ended.fits fits)
        (((((o.sub 1).range p.entries).map Prod.fst).insertionSort (· ≤ ·))) b
      rw [sorted_keys, ← ended.map] at after
      rw [committed]
      exact ⟨rfl, after⟩

/-- Buckets that are maps, with cursors that are the lists of the entries to come. -/
def listBolt : Bbolt Store (List (Bytes × Bytes)) where
  get b k := b.get k
  put b k v :=
    if k = [] then .error (.plain "key required")
    else if Storable k v then .ok (b.set k v)
    else .error (.plain "key or value too large")
  delete b k := .ok (b.delete k)
  cursor b := b.entries
  seek c k := ((c.filter (fun e => k ≤ e.1)).tail, (c.filter (fun e => k ≤ e.1)).head?)
  next c := (c.tail, c.head?)

theorem listBolt_lawful : listBolt.Lawful id id where
  get _ _ := rfl
  put b k v present storable := ⟨b.set k v, (if_neg present).trans (if_pos storable), rfl⟩
  refused b k v large := by
    by_cases empty : k = []
    · exact ⟨_, if_pos empty⟩
    · exact ⟨_, (if_neg empty).trans (if_neg large)⟩
  delete b k := ⟨b.delete k, rfl, rfl⟩
  seek _ _ := ⟨rfl, rfl⟩
  next _ := ⟨rfl, rfl⟩

/-- Code that deletes a key while an iterator stands on it. -/
def deletingAhead : Client storageTxn (Except Err Unit × Option Bytes) :=
  .call (.set [1] [2]) (fun _ => .call (.scan []) (fun it => .call (.delete [1]) (fun _ =>
    .call (.key it) (fun k => .done (.ok (), k)))))

/-- The iterator still shows it, and the commit leaves nothing. -/
theorem update_deletingAhead
    : update listBolt ⟨fun _ _ => 0⟩ deletingAhead .empty = ((.ok (), some [1]), .empty) := by
  obtain ⟨_, _, refines⟩ := update_refines listBolt_lawful ⟨fun _ _ => 0⟩ deletingAhead .empty
  obtain ⟨answer, contents⟩ := refines rfl
  exact Prod.ext answer contents

/-- Code that sets one key and returns nil. -/
def setting (key : Bytes) : Client storageTxn (Except Err Unit × Unit) :=
  .call (.set key []) (fun _ => .done (.ok (), ()))

/-- Without the limits the commit can differ from the reference map.
Witness: a key of one byte more than bbolt accepts; the function returns nil and `Update` fails.
-/
theorem not_update_refines
    : ¬ ∀ fn : Client storageTxn (Except Err Unit × Unit),
      (update listBolt ⟨fun _ _ => 0⟩ fn .empty).1 = (referenceUpdate fn .empty).1 := by
  intro always
  obtain ⟨key, length⟩ : ∃ key : Bytes, key.length = maxKeySize + 1 :=
    ⟨List.replicate (maxKeySize + 1) 0, List.length_replicate⟩
  have named : key ≠ [] := by
    rintro rfl
    cases length
  have large : ¬ Storable key [] := by
    rintro ⟨small, _⟩
    omega
  have same := congrArg Prod.fst (always (setting key))
  have bolts : (update listBolt ⟨fun _ _ => 0⟩ (setting key) .empty).1.1
      = .error (.because "bolt: commit" (.plain "key or value too large")) := by
    have keys : (((MapOrder.sub ⟨fun _ _ => 0⟩ 1).range (OrderedMap.empty.set key (some ([] : Bytes))).entries).map
        Prod.fst).insertionSort (· ≤ ·) = [key] :=
      perm_singleton.mp ((perm_insertionSort _ _).trans ((MapOrder.range_perm _ _).map Prod.fst))
    have refused : listBolt.put .empty key [] = .error (.plain "key or value too large") :=
      (if_neg named).trans (if_neg large)
    have held : (OrderedMap.empty.set key (some ([] : Bytes))).get key = some (some []) := by
      rw [get_set, if_pos rfl]
    simp [update, setting, Client.run, boltMachine, BoltTxn.set, named, keys, commit, writeOut, held, refused]
  rw [bolts] at same
  simp [referenceUpdate, setting, Client.run, referenceMachine, named] at same

end Intreccio.Storage
