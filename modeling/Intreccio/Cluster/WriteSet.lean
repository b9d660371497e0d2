import Intreccio.Foundation.Overwrite
import Intreccio.Storage

/-! Write-sets (`cluster/record.go`): the recorded mutations of a statement as bytes, and their
replay in a transaction of the engine. The replay interleaves decoding and writing, and stops at
the first byte it cannot read or the first write the engine refuses.
-/

namespace Intreccio.Cluster

open Kv Words List

def opSet : UInt8 := 1
def opDel : UInt8 := 2

inductive Op where
  | set (key val : Bytes)
  | del (key : Bytes)
deriving DecidableEq

def Op.write : Op → Write Bytes Bytes
  | .set key val => (key, some val)
  | .del key => (key, none)

def Op.parts : Op → List Bytes
  | .set key val => [key, val]
  | .del key => [key]

/-- What an engine refuses inside one transaction. A refusal may depend on the mutations accepted
so far (a size limit) and on the mutation itself (an empty key); a commit may be refused as well.
-/
structure Engine where
  refusal : List Op → Op → Option Err
  commitRefusal : List Op → Option Err

/-- A read-write transaction: what it reads, its own writes included, and what was accepted. -/
structure RealTxn where
  view : Store
  accepted : List Op

/-- `Set` or `Delete` on the engine's transaction; a refused one changes nothing. -/
def RealTxn.mutate (engine : Engine) (t : RealTxn) (o : Op) : Except Err Unit × RealTxn :=
  match engine.refusal t.accepted o with
  | some e => (.error e, t)
  | none => (.ok (), ⟨t.view.put o.write, t.accepted ++ [o]⟩)

/-- `Store.Update`: the function's writes are committed when it returns nil, and discarded when
it returns an error or the commit fails. `γ` is what the function leaves in captured variables.
-/
def Engine.update {γ : Type} (engine : Engine) (fn : RealTxn → Except Err Unit × γ × RealTxn)
    (s : Store) : Except Err Unit × γ × Store :=
  match fn ⟨s, []⟩ with
  | (.error e, captured, _) => (.error e, captured, s)
  | (.ok _, captured, t) =>
    match engine.commitRefusal t.accepted with
    | some e => (.error e, captured, s)
    | none => (.ok (), captured, t.view)

/-- The mutations one after the other, stopping at the first refusal. -/
def RealTxn.performAll (engine : Engine) : List Op → RealTxn → Except Err Unit × RealTxn
  | [], t => (.ok (), t)
  | o :: rest, t =>
    match t.mutate engine o with
    | (.error e, t) => (.error e, t)
    | (.ok _, t) => RealTxn.performAll engine rest t

/-- `putUvarint(uint64(len(x)))`. -/
def putUvarint (n : Nat) : Bytes := uvarintBytes (UInt64.ofNat n)

def putBytes (b : Bytes) : Bytes := putUvarint b.length ++ b

def Op.encode : Op → Bytes
  | .set key val => opSet :: (putBytes key ++ putBytes val)
  | .del key => opDel :: putBytes key

def encode (ops : List Op) : Bytes := putUvarint ops.length ++ ops.flatMap Op.encode

def eof : Err := .plain "EOF"
def unexpectedEOF : Err := .plain "unexpected EOF"
def varintOverflow : Err := .plain "binary: varint overflows a 64-bit integer"

/-- The largest slice Go allocates; `make` panics above it. -/
def maxAlloc : Nat := 2 ^ 48

def makeslicePanic : Err := .plain "runtime error: makeslice: len out of range"

/-- `binary.ReadUvarint`, which tells an exhausted reader from a word that is too long. -/
def readUvarint (b : Bytes) : Except Err (UInt64 × Bytes) :=
  match Words.readUvarint b with
  | some r => .ok r
  | none =>
    if b = [] then .error eof
    else if b.length < 10 ∧ b.all (fun c => 128 ≤ c) then .error unexpectedEOF
    else .error varintOverflow

/-- `readBytes` and `readFull`: a length and that many bytes. -/
def readBytes (b : Bytes) : Except Err (Bytes × Bytes) := do
  let (n, rest) ← readUvarint b
  if maxAlloc < n.toNat then throw makeslicePanic
  if rest.length < n.toNat then throw eof
  return (rest.take n.toNat, rest.drop n.toNat)

/-- The error text of the part of operation `i` that could not be read. -/
def opError (i : Nat) (part : String) (cause : Err) : Err :=
  .because ("write-set: op " ++ toString i ++ " " ++ part) cause

/-- The operations from number `i` on, `n` of them. -/
def applyOps (engine : Engine) : Nat → Nat → Bytes → RealTxn → Except Err Unit × RealTxn
  | 0, _, _, t => (.ok (), t)
  | _ + 1, i, [], t => (.error (opError i "kind" eof), t)
  | n + 1, i, kind :: data, t =>
    match readBytes data with
    | .error e => (.error (opError i "key" e), t)
    | .ok (key, data) =>
      if kind = opSet then
        match readBytes data with
        | .error e => (.error (opError i "val" e), t)
        | .ok (val, data) =>
          match t.mutate engine (.set key val) with
          | (.error e, t) => (.error e, t)
          | (.ok _, t) => applyOps engine n (i + 1) data t
      else if kind = opDel then
        match t.mutate engine (.del key) with
        | (.error e, t) => (.error e, t)
        | (.ok _, t) => applyOps engine n (i + 1) data t
      else
        (.error (.plain ("write-set: op " ++ toString i ++ " unknown kind "
          ++ toString kind.toNat)), t)

def applyWriteSet (engine : Engine) (data : Bytes) (t : RealTxn) : Except Err Unit × Unit × RealTxn :=
  match readUvarint data with
  | .error e => (.error (.because "write-set: count" e), (), t)
  | .ok (count, data) =>
    let (result, t) := applyOps engine count.toNat 0 data t
    (result, (), t)

/-- What fits in memory: no slice is longer than Go allocates. -/
def Sized (ops : List Op) : Prop :=
  ops.length < maxAlloc ∧ ∀ o ∈ ops, ∀ part ∈ o.parts, part.length < maxAlloc

theorem readUvarint_putUvarint (n : Nat) (rest : Bytes)
    : readUvarint (putUvarint n ++ rest) = .ok (UInt64.ofNat n, rest) := by
  rw [readUvarint, putUvarint, readUvarint_uvarintBytes]

theorem toNat_ofNat_of_lt {n : Nat} (bound : n < maxAlloc) : (UInt64.ofNat n).toNat = n := by
  apply UInt64.toNat_ofNat_of_lt'
  exact lt_trans bound (by decide)

theorem readBytes_putBytes {b : Bytes} (bound : b.length < maxAlloc) (rest : Bytes)
    : readBytes (putBytes b ++ rest) = .ok (b, rest) := by
  have length := toNat_ofNat_of_lt bound
  rw [readBytes, putBytes, append_assoc, readUvarint_putUvarint]
  simp only [bind, Except.bind, length]
  rw [if_neg (by omega), if_neg (by simp)]
  simp [pure, Except.pure]

/-- Decoding and replaying encoded operations performs those operations. -/
theorem applyOps_encode (engine : Engine) {ops : List Op}
    (sized : ∀ o ∈ ops, ∀ part ∈ o.parts, part.length < maxAlloc) (i : Nat) (t : RealTxn)
    : applyOps engine ops.length i (ops.flatMap Op.encode) t = t.performAll engine ops := by
  induction ops generalizing i t with
  | nil => rfl
  | cons o rest ih =>
    have tail := fun i t => ih (fun o member => sized o (mem_cons_of_mem _ member)) i t
    have here := sized o mem_cons_self
    cases o with
    | set key val =>
      have keyBound := here key (by simp [Op.parts])
      have valBound := here val (by simp [Op.parts])
      simp only [length_cons, flatMap_cons, Op.encode, cons_append,
        append_assoc, applyOps, readBytes_putBytes keyBound, if_true,
        readBytes_putBytes valBound, RealTxn.performAll, tail]
    | del key =>
      have keyBound := here key (by simp [Op.parts])
      have other : opDel ≠ opSet := by decide
      simp only [length_cons, flatMap_cons, Op.encode, cons_append, applyOps,
        readBytes_putBytes keyBound, if_neg other, if_true, RealTxn.performAll, tail]

theorem applyWriteSet_encode (engine : Engine) {ops : List Op} (sized : Sized ops) (t : RealTxn)
    : applyWriteSet engine (encode ops) t
      = ((t.performAll engine ops).1, (), (t.performAll engine ops).2) := by
  rw [applyWriteSet, encode, readUvarint_putUvarint]
  simp only [toNat_ofNat_of_lt sized.1, applyOps_encode engine sized.2]

/-- A transaction function whose result and accepted mutations do not depend on what it reads,
and whose writes are the same on every store.
-/
def Blind (fn : RealTxn → Except Err Unit × RealTxn) : Prop :=
  ∀ accepted, ∃ result made, ∀ view,
    fn ⟨view, accepted⟩ = (result, ⟨view.overwrite (made.map Op.write), accepted ++ made⟩)

theorem Blind.halt (result : Except Err Unit) : Blind (fun t => (result, t)) := by
  intro accepted
  exact ⟨result, [], fun view => by simp⟩

/-- A mutation followed by a blind function is blind. -/
theorem Blind.mutate (engine : Engine) (o : Op) {rest : RealTxn → Except Err Unit × RealTxn}
    (blind : Blind rest)
    : Blind (fun t =>
        match t.mutate engine o with
        | (.error e, t) => (.error e, t)
        | (.ok _, t) => rest t) := by
  intro accepted
  cases refused : engine.refusal accepted o with
  | some e =>
    refine ⟨.error e, [], fun view => ?_⟩
    simp [RealTxn.mutate, refused]
  | none =>
    obtain ⟨result, made, runs⟩ := blind (accepted ++ [o])
    refine ⟨result, o :: made, fun view => ?_⟩
    simp [RealTxn.mutate, refused, runs]

theorem applyOps_blind (engine : Engine) (n i : Nat) (data : Bytes) : Blind (applyOps engine n i data) := by
  induction n generalizing i data with
  | zero => exact .halt _
  | succ n ih =>
    cases data with
    | nil => exact .halt _
    | cons kind data =>
      simp only [applyOps]
      cases readBytes data with
      | error e => exact .halt _
      | ok r =>
        obtain ⟨key, data⟩ := r
        by_cases isSet : kind = opSet
        · simp only [if_pos isSet]
          cases readBytes data with
          | error e => exact .halt _
          | ok r => exact .mutate engine _ (ih _ _)
        · simp only [if_neg isSet]
          by_cases isDel : kind = opDel
          · simp only [if_pos isDel]
            exact .mutate engine _ (ih _ _)
          · simp only [if_neg isDel]
            exact .halt _

/-- `fsm.Apply` on the store: the write-set in one transaction, or nothing. -/
def fsmApply (engine : Engine) (s : Store) (data : Bytes) : Store :=
  (engine.update (applyWriteSet engine data) s).2.2

/-- The writes of an entry that commits, read off a replay on an empty store. -/
def effects (engine : Engine) (data : Bytes) : List (Write Bytes Bytes) :=
  match applyWriteSet engine data ⟨.empty, []⟩ with
  | (.error _, _, _) => []
  | (.ok _, _, t) =>
    match engine.commitRefusal t.accepted with
    | some _ => []
    | none => t.accepted.map Op.write

/-- Applying an entry makes the same writes on every store.
Witness: the replay is blind, and so is the decision whether it commits.
-/
theorem fsmApply_eq (engine : Engine) (s : Store) (data : Bytes)
    : fsmApply engine s data = s.overwrite (effects engine data) := by
  cases count : readUvarint data with
  | error e => simp [fsmApply, Engine.update, effects, applyWriteSet, count]
  | ok r =>
    obtain ⟨result, made, runs⟩ := applyOps_blind engine r.1.toNat 0 r.2 []
    rcases result with e | u
    · simp [fsmApply, Engine.update, effects, applyWriteSet, count, runs]
    · cases refused : engine.commitRefusal made with
      | some e => simp [fsmApply, Engine.update, effects, applyWriteSet, count, runs, refused]
      | none => simp [fsmApply, Engine.update, effects, applyWriteSet, count, runs, refused]

end Intreccio.Cluster
