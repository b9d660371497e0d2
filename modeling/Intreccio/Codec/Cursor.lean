import Intreccio.Codec.Records

/-! The decoders on arbitrary bytes (`internal/storage/codec/record.go` and `value.go`), with the positions
at which they index and slice. An index outside the buffer is a panic, and a call that has not come to its
end is unfinished. Neither happens: a position only says where the rest of the buffer begins.
-/

namespace Intreccio.Codec

open Kv Words List

/-- How a call can end without a value. -/
inductive Fault where
  | panic
  | unfinished
  | err (e : Err)

/-- `b[i]`. -/
def index (b : Bytes) (i : Int) : Except Fault UInt8 :=
  if 0 ≤ i then (b[i.toNat]?).elim (.error .panic) .ok else .error .panic

/-- `b[lo:hi]`. -/
def cut (b : Bytes) (lo hi : Int) : Except Fault Bytes :=
  if 0 ≤ lo ∧ lo ≤ hi ∧ hi ≤ b.length then .ok ((b.take hi.toNat).drop lo.toNat) else .error .panic

/-- `binary.BigEndian.Uint64`, which looks at the eighth byte first. -/
def bigEndianUint64 (b : Bytes) : Except Fault UInt64 := do
  let _ ← index b 7
  return uint64OfBytes (b.take 8)

def Fault.because (what : String) : Fault → Fault
  | .err e => .err (.because what e)
  | f => f

structure Cursor where
  b : Bytes
  i : Int

/-- A method of the cursor. -/
abbrev Scan (α : Type) := Cursor → Except Fault (α × Cursor)

namespace Cursor

variable {α : Type}

def remaining (r : Cursor) : Int := r.b.length - r.i

/-- `n > uint64(r.remaining())`. -/
def exceeded (r : Cursor) (n : UInt64) : Prop := UInt64.ofInt r.remaining < n

instance (r : Cursor) (n : UInt64) : Decidable (r.exceeded n) := inferInstanceAs (Decidable (_ < _))

def uvarint : Scan UInt64 := fun r => do
  let tail ← cut r.b r.i r.b.length
  match readUvarint tail with
  | some (v, rest) => return (v, { r with i := r.i + (tail.length - rest.length) })
  | none => throw (.err .shortBuffer)

def varint : Scan Int64 := fun r => do
  let (u, r) ← r.uvarint
  return (unzigzag u, r)

def byte : Scan UInt8 := fun r => do
  if r.b.length ≤ r.i then throw (.err .shortBuffer)
  let c ← index r.b r.i
  return (c, { r with i := r.i + 1 })

def bytes (n : Int) : Scan Bytes := fun r => do
  if n < 0 ∨ r.remaining < n then throw (.err .shortBuffer)
  let out ← cut r.b r.i (r.i + n)
  return (out, { r with i := r.i + n })

def many (item : Scan α) : Nat → Scan (List α)
  | 0, r => .ok ([], r)
  | n + 1, r => do
      let (a, r) ← item r
      let (more, r) ← many item n r
      return (a :: more, r)

def count (refusal : UInt64 → Err) : Scan UInt64 := fun r => do
  let (n, r) ← r.uvarint
  if r.exceeded n then throw (.err (refusal n))
  return (n, r)

def mapEntry (value : Scan Val) : Scan (Str × Val) := fun r => do
  let (klen, r) ← r.uvarint
  let (k, r) ← bytes klen.toInt64.toInt r
  let (v, r) ← value r
  return ((k, v), r)

/-- The switch over the tag of a value. -/
def tagged (value : Scan Val) (tag : UInt8) : Scan Val := fun r => do
  if tag = recNull then return (.null, r)
  else if tag = recBool then
    let (c, r) ← r.byte
    return (.bool (c ≠ 0), r)
  else if tag = recInt then
    let (i, r) ← r.varint
    return (.int i, r)
  else if tag = recFloat then
    let (raw, r) ← bytes 8 r
    let bits ← bigEndianUint64 raw
    return (.float ⟨bits⟩, r)
  else if tag = recStr then
    let (n, r) ← count (fun _ => .shortBuffer) r
    let (raw, r) ← bytes n.toInt64.toInt r
    return (.str raw, r)
  else if tag = recList then
    let (n, r) ← count (tooMany "codec: list, implausible length") r
    let (items, r) ← many value n.toNat r
    return (.list items, r)
  else if tag = recMap then
    let (n, r) ← count (tooMany "codec: map, implausible size") r
    let (entries, r) ← many (mapEntry value) n.toNat r
    return (.map (entries.foldl (fun m e => OrderedMap.insertEntry e.1 e.2 m) []), r)
  else throw (.err (.plain ("codec: unknown record tag 0x" ++ hexByte tag)))

/-- One value, with at most `fuel` calls inside each other. -/
def value : Nat → Scan Val
  | 0, _ => .error .unfinished
  | fuel + 1, r => do
    let (tag, r) ← r.byte
    tagged (value fuel) tag r

def propEntry (fuel : Nat) : Scan (UInt32 × Val) := fun r => do
  let (k, r) ← r.uvarint.mapError (.because "codec: property key")
  let (v, r) ← (value fuel r).mapError (.because ("codec: property value " ++ toString k.toNat))
  return ((k.toUInt32, v), r)

def props (fuel : Nat) : Scan (OrderedMap UInt32 Val) := fun r => do
  let (n, r) ← r.uvarint.mapError (.because "codec: property count")
  if r.exceeded n then throw (.err (tooMany "codec: property map, implausible count" n))
  let (entries, r) ← many (propEntry fuel) n.toNat r
  return (entries.foldl (fun m e => m.set e.1 e.2) .empty, r)

def labels (i : Nat) : Nat → Scan (List UInt32)
  | 0, r => .ok ([], r)
  | n + 1, r => do
      let (l, r) ← r.uvarint.mapError (.because ("codec: node record, label " ++ toString i))
      let (more, r) ← labels (i + 1) n r
      return (l.toUInt32 :: more, r)

def decodeNode (fuel : Nat) (b : Bytes) : Except Fault NodeRecord := do
  let (n, r) ← (uvarint ⟨b, 0⟩).mapError (.because "codec: node record, label count")
  if r.exceeded n then throw (.err (tooMany "codec: node record, implausible label count" n))
  let (labels, r) ← labels 0 n.toNat r
  let (p, _) ← props fuel r
  return ⟨labels, p⟩

def decodeEdge (fuel : Nat) (b : Bytes) : Except Fault EdgeRecord := do
  let (typ, r) ← (uvarint ⟨b, 0⟩).mapError (.because "codec: edge record, type")
  let (src, r) ← r.uvarint.mapError (.because "codec: edge record, src")
  let (dst, r) ← r.uvarint.mapError (.because "codec: edge record, dst")
  let (p, _) ← props fuel r
  return ⟨typ.toUInt32, src, dst, p⟩

end Cursor

/-- The loop of `decodeOrderedString` from position `i` on, with the bytes read so far. -/
def orderedStringFrom (src : Bytes) : Nat → Nat → Bytes → Except Fault (Str × Nat)
  | 0, _, _ => .error .unfinished
  | fuel + 1, i, b => do
    if src.length ≤ i then throw (.err .shortBuffer)
    let c ← index src i
    if c ≠ strEsc then orderedStringFrom src fuel (i + 1) (b ++ [c])
    else
      if src.length ≤ i + 1 then throw (.err .shortBuffer)
      let d ← index src (i + 1 : Nat)
      if d = strTerm then return (b, i + 2)
      else if d = strFF then orderedStringFrom src fuel (i + 2) (b ++ [strEsc])
      else throw (.err (.plain ("codec: invalid escape sequence 0x00 0x" ++ hexByte d)))

/-- The word after the tag. -/
def taggedUint64 (src : Bytes) : Except Fault UInt64 := do
  if src.length < 9 then throw (.err .shortBuffer)
  let raw ← cut src 1 9
  bigEndianUint64 raw

def indexValueAt (fuel : Nat) (src : Bytes) : Except Fault (Scalar × Nat) := do
  if src.length = 0 then throw (.err .shortBuffer)
  let tag ← index src 0
  if tag = tagNull then return (.null, 1)
  else if tag = tagBool then
    if src.length < 2 then throw (.err .shortBuffer)
    let c ← index src 1
    return (.bool (c ≠ 0), 2)
  else if tag = tagInt then
    let u ← taggedUint64 src
    return (.int (intOfBits u), 9)
  else if tag = tagFloat then
    let u ← taggedUint64 src
    return (.float (floatOfBits u), 9)
  else if tag = tagStr then
    let rest ← cut src 1 src.length
    let (s, n) ← orderedStringFrom rest fuel 0 []
    return (.str s, 1 + n)
  else throw (.err (.plain ("codec: unknown value tag 0x" ++ hexByte tag)))

section Positions

variable {α β γ δ : Type} {R : α → β → Prop} {S : γ → δ → Prop} {P : α → Prop} {Q : γ → Prop} {b rest : Bytes}
  {N : Nat}

/-- A call with positions ends as the call without them, with an error or with related values. -/
def Ends (R : α → β → Prop) (x : Except Fault α) (y : Except Err β) : Prop :=
  (∃ e, x = .error (.err e) ∧ y = .error e) ∨ ∃ a b, R a b ∧ x = .ok a ∧ y = .ok b

section

variable {x : Except Fault α} {y : Except Err β}

theorem Ends.err (e : Err) : Ends R (.error (.err e)) (.error e) := .inl ⟨e, rfl, rfl⟩

theorem Ends.ok {a : α} {b : β} (related : R a b) : Ends R (.ok a) (.ok b) := .inr ⟨a, b, related, rfl, rfl⟩

theorem Ends.bind {f : α → Except Fault γ} {g : β → Except Err δ} (first : Ends R x y)
    (later : ∀ a b, R a b → Ends S (f a) (g b))
    : Ends S (x >>= f) (y >>= g) := by
  rcases first with ⟨e, rfl, rfl⟩ | ⟨a, b, related, rfl, rfl⟩
  · exact .err e
  · exact later a b related

theorem Ends.because (what : String) (ends : Ends R x y)
    : Ends R (x.mapError (.because what)) (y.mapError (.because what)) := by
  rcases ends with ⟨e, rfl, rfl⟩ | ⟨a, b, related, rfl, rfl⟩
  · exact .err _
  · exact .ok related

end

/-- The cursor in whose buffer `rest` is left. -/
def cursor (b rest : Bytes) : Cursor := ⟨b, b.length - rest.length⟩

/-- The same value is read, and the position is that of the rest. -/
structure Left (b : Bytes) (N : Nat) (P : α → Prop) (p : α × Cursor) (q : α × Bytes) : Prop where
  same : p = (q.1, cursor b q.2)
  suffix : q.2 <:+ b
  short : q.2.length ≤ N
  good : P q.1

/-- The method reads at a position what the reader reads from the rest of the buffer. -/
def Follows (b : Bytes) (N : Nat) (P : α → Prop) (x : Scan α) (y : Reader α) : Prop :=
  ∀ rest, rest <:+ b → rest.length ≤ N → Ends (Left b N P) (x (cursor b rest)) (y rest)

section

variable {x : Scan α} {y : Reader α}

theorem Follows.ok {a : α} (good : P a) : Follows b N P (fun r => .ok (a, r)) (fun rest => .ok (a, rest)) :=
  fun _ suffix short => .ok ⟨rfl, suffix, short, good⟩

theorem Follows.err (e : Err) : Follows b N P (fun _ => .error (.err e)) (fun _ => .error e) :=
  fun _ _ _ => .err e

theorem Follows.ends {f : α × Cursor → Except Fault γ} {g : α × Bytes → Except Err δ} (first : Follows b N P x y)
    (later : ∀ a rest, P a → rest <:+ b → rest.length ≤ N → Ends S (f (a, cursor b rest)) (g (a, rest)))
    (suffix : rest <:+ b) (short : rest.length ≤ N)
    : Ends S (x (cursor b rest) >>= f) (y rest >>= g) := by
  refine (first rest suffix short).bind fun p q left => ?_
  rw [left.same]
  exact later q.1 q.2 left.good left.suffix left.short

theorem Follows.bind {f : α × Cursor → Except Fault (γ × Cursor)} {g : α × Bytes → Except Err (γ × Bytes)}
    (first : Follows b N P x y)
    (later : ∀ a, P a → Follows b N Q (fun r => f (a, r)) (fun rest => g (a, rest)))
    : Follows b N Q (fun r => x r >>= f) (fun rest => y rest >>= g) :=
  fun _ suffix short => first.ends (fun a rest good => later a good rest) suffix short

theorem Follows.ite {c : Prop} [Decidable c] {x' : Scan α} {y' : Reader α} (yes : Follows b N P x y)
    (no : Follows b N P x' y')
    : Follows b N P (fun r => if c then x r else x' r) (fun rest => if c then y rest else y' rest) := by
  split
  · exact yes
  · exact no

theorem Follows.because (what : String) (follows : Follows b N P x y)
    : Follows b N P (fun r => (x r).mapError (.because what)) (fun rest => (y rest).mapError (.because what)) :=
  fun rest suffix short => (follows rest suffix short).because what

theorem Follows.mono {M : Nat} (follows : Follows b M P x y) (suffix : rest <:+ b) (short : rest.length ≤ M)
    (less : M ≤ N)
    : Ends (Left b N P) (x (cursor b rest)) (y rest) := by
  rcases follows rest suffix short with failed | ⟨p, q, left, ended⟩
  · exact .inl failed
  · exact .inr ⟨p, q, ⟨left.same, left.suffix, left.short.trans less, left.good⟩, ended⟩

end

theorem index_append (x : Bytes) (c : UInt8) (y : Bytes) : index (x ++ c :: y) x.length = .ok c := by
  simp [index]

theorem cut_append (x y z : Bytes) : cut (x ++ y ++ z) x.length (x.length + y.length) = .ok y := by
  have inside : (0 : Int) ≤ x.length ∧ (x.length : Int) ≤ x.length + y.length
      ∧ (x.length + y.length : Int) ≤ (x ++ y ++ z).length := by
    simp only [length_append]
    omega
  rw [cut, if_pos inside, ← Int.natCast_add, Int.toNat_natCast, Int.toNat_natCast, ← length_append,
    take_left, drop_left]

theorem bigEndianUint64_eq {raw : Bytes} (size : raw.length = 8)
    : bigEndianUint64 raw = .ok (uint64OfBytes raw) := by
  have last : index raw 7 = .ok raw[7] := by simp [index, size]
  rw [bigEndianUint64, last, take_of_length_le (by omega)]
  rfl

theorem cursor_append (x y : Bytes) : cursor (x ++ y) y = ⟨x ++ y, x.length⟩ := by
  simp [cursor]

theorem readDigits_suffix {i x v : Nat} (read : readDigits i x b = some (v, rest)) : rest <:+ b := by
  induction b generalizing i x with
  | nil => cases read
  | cons c more ih =>
    rw [readDigits] at read
    split_ifs at read
    · cases read
      exact suffix_cons c rest
    · exact (ih read).trans (suffix_cons c more)

theorem uvarint_follows : Follows b N (fun _ => True) Cursor.uvarint uvarint := by
  rintro rest ⟨before, rfl⟩ short
  have tail : cut (before ++ rest) before.length (before ++ rest).length = .ok rest := by
    simpa using cut_append before rest []
  rw [cursor_append, Cursor.uvarint, uvarint, tail]
  simp only [bind, Except.bind]
  cases read : readUvarint rest with
  | none => exact .err _
  | some r =>
    obtain ⟨⟨w, last⟩, found, rfl⟩ := Option.map_eq_some_iff.mp read
    obtain ⟨taken, rfl⟩ := readDigits_suffix found
    have place : (before.length + ((taken ++ last).length - last.length) : Int)
        = (before ++ (taken ++ last)).length - last.length := by
      simp only [length_append]
      omega
    rw [length_append] at short
    dsimp only
    rw [place]
    exact .ok ⟨rfl, (suffix_append taken last).trans (suffix_append before _),
      Nat.le_of_add_left_le short, trivial⟩

theorem byte_cursor (suffix : rest <:+ b)
    : (rest = [] ∧ (cursor b rest).byte = .error (.err .shortBuffer))
      ∨ ∃ c more, rest = c :: more ∧ (cursor b rest).byte = .ok (c, cursor b more) := by
  obtain ⟨before, rfl⟩ := suffix
  rw [cursor_append, Cursor.byte]
  cases rest with
  | nil => exact .inl ⟨rfl, if_pos (by simp)⟩
  | cons c more =>
    have inside : ¬ ((before ++ c :: more).length : Int) ≤ before.length := by
      simp only [length_append, length_cons]
      omega
    have place : (before.length + 1 : Int) = (before ++ c :: more).length - more.length := by
      simp only [length_append, length_cons]
      omega
    refine .inr ⟨c, more, rfl, ?_⟩
    rw [if_neg inside, index_append, cursor, ← place]
    rfl

theorem remaining_cursor (b rest : Bytes) : (cursor b rest).remaining = rest.length := by
  simp [cursor, Cursor.remaining]

theorem bytes_follows (n : Nat)
    : Follows b N (fun raw => raw.length = n ∧ n ≤ N) (Cursor.bytes n) (bytes n) := by
  intro rest suffix short
  rw [bytes, Cursor.bytes, remaining_cursor]
  obtain ⟨before, rfl⟩ := suffix
  split
  next lacking =>
    rw [if_pos (by omega)]
    exact .err _
  next enough =>
    rw [if_neg (by omega)]
    have size : (rest.take n).length = n := by simp; omega
    have part := cut_append before (rest.take n) (rest.drop n)
    rw [append_assoc, take_append_drop, size] at part
    have place : (before.length + n : Int) = (before ++ rest).length - (rest.drop n).length := by
      simp only [length_append, length_drop]
      omega
    rw [cursor_append, part]
    simp only [bind, Except.bind]
    rw [place]
    refine .ok ⟨rfl, (drop_suffix n rest).trans (suffix_append before rest), ?_, size, by omega⟩
    rw [length_drop]
    omega

theorem varint_follows : Follows b N (fun _ => True) Cursor.varint varint :=
  uvarint_follows.bind fun _ _ => .ok trivial

theorem many_follows {item : Scan α} {item' : Reader α} (each : Follows b N P item item') (n : Nat)
    : Follows b N (fun l => l.length = n ∧ ∀ a ∈ l, P a) (Cursor.many item n) (readMany item' n) := by
  induction n with
  | zero => exact .ok (by simp)
  | succ n ih =>
    refine each.bind fun a good => ih.bind fun more all => ?_
    exact .ok (by simpa [all.1] using ⟨good, all.2⟩)

theorem labels_follows (i n : Nat)
    : Follows b N (fun l => l.length = n) (Cursor.labels i n) (readLabels i n) := by
  induction n generalizing i with
  | zero => exact .ok rfl
  | succ n ih =>
    refine (uvarint_follows.because _).bind fun l _ => (ih (i + 1)).bind fun more size => ?_
    exact .ok (by simp [size])

/-- Of entries with one key the last stays. -/
theorem stable_entries {entries : List (Str × Val)} (few : entries.length < maxLen)
    (all : ∀ e ∈ entries, e.1.length < maxLen ∧ Stable e.2)
    : Stable (.map (entries.foldl (fun m e => OrderedMap.insertEntry e.1 e.2 m) [])) := by
  have built := OrderedMap.entries_foldl_set entries .empty
  generalize made : entries.foldl (fun m e => m.set e.1 e.2) OrderedMap.empty = m at built
  have among (e : Str × Val) (member : e ∈ m.entries) : e ∈ entries := by
    have held : m.get e.1 = some e.2 := OrderedMap.get_eq_some_iff.mpr member
    rw [← made] at held
    exact (get_foldl_set held).resolve_left (by simp)
  have once : m.entries.Nodup := m.sorted.imp fun less same => by simp [same] at less
  change Stable (.map (entries.foldl _ OrderedMap.empty.entries))
  rw [← built]
  refine stable_map ?_ m.sorted fun e member => all e (among e member)
  exact (subperm_of_subset once among).length_le.trans_lt few

theorem toInt_toInt64 (n : UInt64)
    : n.toInt64.toInt = if n.toNat < maxLen then (n.toNat : Int) else n.toNat - 2 ^ 64 := by
  have same : n.toInt64.toInt = n.toBitVec.toInt := rfl
  have half : 2 * n.toBitVec.toNat < 2 ^ 64 ↔ n.toNat < 2 ^ 63 := by
    change 2 * n.toNat < _ ↔ _
    omega
  rw [same, BitVec.toInt_eq_toNat_cond, maxLen]
  simp only [half]
  rfl

section Sizes

variable (small : b.length < maxLen)

include small

theorem exceeded_cursor (suffix : rest <:+ b) (n : UInt64)
    : (cursor b rest).exceeded n ↔ rest.length < n.toNat := by
  have bound := suffix.length_le
  have word : (UInt64.ofInt rest.length).toNat = rest.length := by
    rw [maxLen] at small
    simp [UInt64.ofInt]
    omega
  rw [Cursor.exceeded, remaining_cursor, UInt64.lt_iff_toNat_lt, word]

/-- A length that is negative as an `int` is more than the bytes that are left. -/
theorem bytes_word_follows (n : UInt64)
    : Follows b N (fun raw => raw.length = n.toNat ∧ n.toNat ≤ N) (Cursor.bytes n.toInt64.toInt)
        (bytes n.toNat) := by
  rw [toInt_toInt64]
  split
  · exact bytes_follows n.toNat
  next large =>
    intro rest suffix short
    have bound := suffix.length_le
    have wrapped := n.toNat_lt
    rw [bytes, Cursor.bytes, if_pos (by omega), if_pos (by omega)]
    exact .err _

theorem count_bind_follows {refusal : UInt64 → Err} {f : UInt64 × Cursor → Except Fault (α × Cursor)}
    {g : Nat × Bytes → Except Err (α × Bytes)}
    (later : ∀ n, n.toNat < maxLen → Follows b N P (fun r => f (n, r)) (fun rest => g (n.toNat, rest)))
    : Follows b N P (fun r => Cursor.count refusal r >>= f) (fun rest => count refusal rest >>= g) := by
  intro rest suffix short
  simp only [Cursor.count, count, bind_assoc]
  refine uvarint_follows.ends (fun n rest _ suffix short => ?_) suffix short
  have bound := suffix.length_le
  simp only [exceeded_cursor small suffix]
  split
  · exact .err _
  next fits => exact later n (by omega) rest suffix short

theorem mapEntry_follows {value : Scan Val} {value' : Reader Val} (bound : N < maxLen)
    (inner : Follows b N Stable value value')
    : Follows b N (fun e => e.1.length < maxLen ∧ Stable e.2) (Cursor.mapEntry value) (mapEntry value') := by
  refine uvarint_follows.bind fun klen _ => ?_
  refine (bytes_word_follows small klen).bind fun k size => inner.bind fun v stable => ?_
  exact .ok ⟨size.1.trans_lt (by omega), stable⟩

theorem tagged_follows {read : Scan Val} {depth : Nat} (bound : N < maxLen)
    (inner : Follows b N Stable read (value depth)) (tag : UInt8)
    : Follows b N Stable (Cursor.tagged read tag) (fun rest => value (depth + 1) (tag :: rest)) := by
  unfold Cursor.tagged
  refine .ite (.ok ⟨rfl, rfl⟩) (.ite ?_ (.ite ?_ (.ite ?_ (.ite ?_ (.ite ?_ (.ite ?_ (.err _)))))))
  · intro rest suffix short
    rcases byte_cursor suffix with ⟨rfl, ended⟩ | ⟨c, more, rfl, read⟩
    · simp only [ended]
      exact .err _
    · simp only [read]
      exact .ok ⟨rfl, (suffix_cons c more).trans suffix, Nat.le_of_lt short, rfl, rfl⟩
  · exact varint_follows.bind fun _ _ => .ok (Stable.mk rfl rfl)
  · refine (bytes_follows 8).bind fun raw size => ?_
    simp only [bigEndianUint64_eq size.1]
    exact .ok (Stable.mk rfl rfl)
  · refine count_bind_follows small fun n _ => (bytes_word_follows small n).bind fun raw size => ?_
    exact .ok ⟨decide_eq_true (size.1.trans_lt (by omega)), rfl⟩
  · refine count_bind_follows small fun n few => (many_follows inner n.toNat).bind fun items all => ?_
    exact .ok (stable_list (all.1.trans_lt few) all.2)
  · refine count_bind_follows small fun n few => ?_
    refine (many_follows (mapEntry_follows small bound inner) n.toNat).bind fun entries all => ?_
    exact .ok (stable_entries (all.1.trans_lt few) all.2)

-- A nested value starts at least one byte further, so a call for each byte is enough.
theorem value_follows {fuel depth : Nat} (bound : N ≤ b.length) (enough : N < fuel) (deep : N ≤ depth)
    : Follows b N Stable (Cursor.value fuel) (value depth) := by
  induction fuel generalizing depth N with
  | zero => omega
  | succ fuel ih =>
    intro rest suffix short
    rw [Cursor.value]
    rcases byte_cursor suffix with ⟨rfl, ended⟩ | ⟨tag, more, rfl, read⟩
    · rw [ended]
      cases depth <;> exact .err _
    · rw [length_cons] at short
      obtain ⟨depth, rfl⟩ : ∃ d, depth = d + 1 := ⟨depth - 1, by omega⟩
      obtain ⟨N, rfl⟩ : ∃ n, N = n + 1 := ⟨N - 1, by omega⟩
      rw [read]
      have inner := ih (by omega) (by omega) (Nat.le_of_succ_le_succ deep)
      exact (tagged_follows small (by omega) inner tag).mono ((suffix_cons tag more).trans suffix)
        (Nat.le_of_succ_le_succ short) (Nat.le_succ N)

variable {fuel : Nat} (enough : b.length < fuel)

include enough

theorem propEntry_follows : Follows b b.length (fun e => Stable e.2) (Cursor.propEntry fuel) propEntry := by
  refine (uvarint_follows.because _).bind fun k _ => ?_
  refine Follows.bind (P := Stable) (fun rest suffix short => Ends.because _ ?_) fun v stable => .ok stable
  exact (value_follows small short (short.trans_lt enough) (Nat.le_refl _)).mono suffix (Nat.le_refl _) short

theorem props_follows : Follows b b.length StorableProps (Cursor.props fuel) props := by
  refine (uvarint_follows.because _).bind fun n _ rest suffix short => ?_
  simp only [exceeded_cursor small suffix]
  split
  · exact .err _
  refine (many_follows (propEntry_follows small enough) n.toNat).ends (fun entries rest all suffix short => ?_)
    suffix short
  refine .ok ⟨rfl, suffix, short, ?_⟩
  exact .of_stable fun k v held => all.2 (k, v) ((get_foldl_set held).resolve_left (by simp))

omit small enough in
theorem cursor_self (b : Bytes) : cursor b b = ⟨b, 0⟩ := by
  simp [cursor]

theorem decodeNode_ends
    : Ends (fun r r' => r = r' ∧ r.labels.length < maxLen ∧ StorableProps r.props) (Cursor.decodeNode fuel b)
        (decodeNode b) := by
  rw [Cursor.decodeNode, decodeNode, ← cursor_self]
  refine (uvarint_follows.because _).ends (fun n rest _ suffix short => ?_) (suffix_refl b) (Nat.le_refl _)
  simp only [exceeded_cursor small suffix]
  split
  · exact .err _
  next fits =>
    refine (labels_follows 0 n.toNat).ends (fun labels rest size suffix short => ?_) suffix short
    refine (props_follows small enough).ends (fun p rest storable _ _ => ?_) suffix short
    exact .ok ⟨rfl, size.trans_lt (by omega), storable⟩

theorem decodeEdge_ends
    : Ends (fun r r' => r = r' ∧ StorableProps r.props) (Cursor.decodeEdge fuel b) (decodeEdge b) := by
  rw [Cursor.decodeEdge, decodeEdge, ← cursor_self]
  refine (uvarint_follows.because _).ends (fun typ rest _ suffix short => ?_) (suffix_refl b) (Nat.le_refl _)
  refine (uvarint_follows.because _).ends (fun src rest _ suffix short => ?_) suffix short
  refine (uvarint_follows.because _).ends (fun dst rest _ suffix short => ?_) suffix short
  exact (props_follows small enough).ends (fun p rest storable _ _ => .ok ⟨rfl, storable⟩) suffix short

end Sizes

/-- The loop at a position reads the string that begins there. -/
theorem orderedStringFrom_ends {fuel : Nat} {before : Bytes} (enough : rest.length < fuel) (acc : Bytes)
    : Ends (fun p q => p = (acc ++ q.1, before.length + q.2) ∧ q.2 ≤ rest.length)
        (orderedStringFrom (before ++ rest) fuel before.length acc) (decodeOrderedString rest) := by
  induction fuel generalizing before rest acc with
  | zero => omega
  | succ fuel ih =>
    -- a byte of the string is written as one byte or two
    have step (taken more : Bytes) (c : UInt8) (same : rest = taken ++ more) (some' : 0 < taken.length)
        : Ends (fun p q => p = (acc ++ q.1, before.length + q.2) ∧ q.2 ≤ rest.length)
            (orderedStringFrom (before ++ rest) fuel (before.length + taken.length) (acc ++ [c]))
            (decodeOrderedString more >>= fun q => pure (c :: q.1, q.2 + taken.length)) := by
      subst same
      rw [length_append] at enough
      have next := @ih more (before ++ taken) (by omega) (acc ++ [c])
      rw [append_assoc, length_append] at next
      rw [← bind_pure (orderedStringFrom _ _ _ _)]
      refine next.bind fun p q both => ?_
      rw [both.1]
      exact .ok ⟨by simp [Nat.add_assoc, Nat.add_comm taken.length], by simp; omega⟩
    rw [orderedStringFrom, decodeOrderedString.eq_def]
    cases rest with
    | nil => exact .inl ⟨_, if_pos (by simp), rfl⟩
    | cons c more =>
      rw [if_neg (by simp), index_append]
      dsimp only [bind, Except.bind]
      split
      · exact step [c] more c rfl Nat.one_pos
      cases more with
      | nil => exact .inl ⟨_, if_pos (by simp), rfl⟩
      | cons d later =>
        have next : index (before ++ c :: d :: later) (before.length + 1 : Nat) = .ok d := by
          simpa using index_append (before ++ [c]) d later
        rw [if_neg (by simp), next]
        dsimp only
        split
        · exact .ok ⟨by simp, by simp⟩
        split
        · exact step [c, d] later strEsc rfl Nat.two_pos
        · exact .err _

theorem taggedUint64_ends (tag : UInt8) (rest : Bytes) (make : UInt64 → Scalar)
    : Ends (fun r r' => r = r' ∧ 1 ≤ r.2 ∧ r.2 ≤ (tag :: rest).length)
        (taggedUint64 (tag :: rest) >>= fun u => pure (make u, 9))
        (if rest.length < 8 then .error .shortBuffer else .ok (make (uint64OfBytes (rest.take 8)), 9)) := by
  rw [taggedUint64, length_cons]
  split
  next short =>
    rw [if_pos (by omega)]
    exact .err _
  next enough =>
    have size : (rest.take 8).length = 8 := by simp; omega
    have part := cut_append [tag] (rest.take 8) (rest.drop 8)
    rw [append_assoc, take_append_drop, size] at part
    have part : cut (tag :: rest) 1 9 = .ok (rest.take 8) := part
    rw [if_neg (by omega), part]
    simp only [bind, Except.bind, bigEndianUint64_eq size]
    exact .ok ⟨rfl, by simp; omega⟩

theorem decodeIndexValue_ends {fuel : Nat} (enough : b.length < fuel)
    : Ends (fun r r' => r = r' ∧ 1 ≤ r.2 ∧ r.2 ≤ b.length) (indexValueAt fuel b) (decodeIndexValue b) := by
  cases b with
  | nil => exact .err _
  | cons tag rest =>
    have first : index (tag :: rest) 0 = .ok tag := rfl
    rw [indexValueAt, if_neg (by simp), first]
    dsimp only [decodeIndexValue, bind, Except.bind]
    split
    · exact .ok ⟨rfl, by simp⟩
    split
    · cases rest with
      | nil => exact .err _
      | cons c more => exact .ok ⟨rfl, by simp⟩
    split
    · exact taggedUint64_ends tag rest fun u => .int (intOfBits u)
    split
    · exact taggedUint64_ends tag rest fun u => .float (floatOfBits u)
    split
    · have body : cut (tag :: rest) 1 (tag :: rest).length = .ok rest := by
        simpa [Int.add_comm] using cut_append [tag] rest []
      rw [body]
      have string := @orderedStringFrom_ends rest fuel [] (Nat.lt_of_succ_lt enough) []
      refine string.bind fun p q both => ?_
      rw [both.1]
      exact .ok ⟨by simp, by simp, by simpa [Nat.add_comm] using both.2⟩
    · exact .err _

end Positions

/-- The decoders come to an end on every buffer without indexing outside it, and what they read can be written
and read again.
-/
theorem decoders_total_and_stable (b : Bytes) (small : b.length < maxLen)
    : (∀ fuel, b.length < fuel
        → Cursor.decodeNode fuel b = (decodeNode b).mapError .err
        ∧ Cursor.decodeEdge fuel b = (decodeEdge b).mapError .err
        ∧ indexValueAt fuel b = (decodeIndexValue b).mapError .err)
      ∧ (∀ v n, decodeIndexValue b = .ok (v, n) → 1 ≤ n ∧ n ≤ b.length)
      ∧ (∀ r, decodeNode b = .ok r → ∃ e r', encodeNode r = .ok e ∧ decodeNode e = .ok r'
        ∧ r'.labels.Perm r.labels ∧ r'.props = r.props)
      ∧ ∀ r, decodeEdge b = .ok r → ∃ e, encodeEdge r = .ok e ∧ decodeEdge e = .ok r := by
  have same {α : Type} {P : α → Prop} {x : Except Fault α} {y : Except Err α}
      (ends : Ends (fun a a' => a = a' ∧ P a) x y)
      : x = y.mapError .err ∧ ∀ a, y = .ok a → P a := by
    rcases ends with ⟨e, rfl, rfl⟩ | ⟨a, _, ⟨rfl, good⟩, rfl, rfl⟩
    · exact ⟨rfl, nofun⟩
    · exact ⟨rfl, fun _ same => Except.ok.inj same ▸ good⟩
  have node := (same (decodeNode_ends small (Nat.lt_succ_self _))).2
  have edge := (same (decodeEdge_ends small (Nat.lt_succ_self _))).2
  have value := (same (decodeIndexValue_ends (b := b) (Nat.lt_succ_self _))).2
  refine ⟨fun fuel enough => ⟨(same (decodeNode_ends small enough)).1, (same (decodeEdge_ends small enough)).1,
    (same (decodeIndexValue_ends enough)).1⟩, fun v n => value (v, n), fun r read => ?_, fun r read => ?_⟩
  · obtain ⟨few, storable⟩ := node r read
    obtain ⟨e, encoded, decoded⟩ := decodeNode_encodeNode_of_length few storable.encodable
    exact ⟨e, _, encoded, decoded, List.perm_insertionSort _ _, storable.settled⟩
  · obtain ⟨e, encoded, decoded⟩ := decodeEdge_encodeEdge (edge r read).encodable
    refine ⟨e, encoded, decoded.trans ?_⟩
    rw [(edge r read).settled]

/-- Witness: a count that is larger than the rest of the buffer. -/
theorem decoders_total_and_stable_count
    : Cursor.decodeNode 2 [7] = (decodeNode [7]).mapError .err :=
  ((decoders_total_and_stable [7] (by decide)).1 2 (by decide)).1

end Intreccio.Codec
