import Intreccio.Value

/-! The order-preserving encoding of indexed values (`internal/storage/codec/value.go`).
Decoding reads one value back from the front of any buffer, so no encoding is a prefix of
another one and different scalars never share a key.
-/

namespace Intreccio.Codec

open Words List

def tagNull : UInt8 := 0x00
def tagBool : UInt8 := 0x01
def tagInt : UInt8 := 0x02
def tagFloat : UInt8 := 0x03
def tagStr : UInt8 := 0x04

def strEsc : UInt8 := 0x00
def strFF : UInt8 := 0xFF
def strTerm : UInt8 := 0x00

/-- Each zero byte is escaped, and two zero bytes end the string. -/
def appendOrderedString : Str → Bytes
  | [] => [strTerm, strTerm]
  | c :: rest =>
    if c = strEsc then strEsc :: strFF :: appendOrderedString rest
    else c :: appendOrderedString rest

/-- Flipping the sign bit makes two's complement sort as unsigned. -/
def intBits (i : Int64) : UInt64 := i.toUInt64 ^^^ topBit

/-- Negative numbers are complemented, the others get the top bit. -/
def floatBits (f : Binary64) : UInt64 :=
  if f.bits &&& topBit ≠ 0 then ~~~f.bits else f.bits ||| topBit

def scalarBytes : Scalar → Bytes
  | .null => [tagNull]
  | .bool b => [tagBool, if b then 1 else 0]
  | .int i => tagInt :: uint64Bytes (intBits i)
  | .float f => tagFloat :: uint64Bytes (floatBits f)
  | .str s => tagStr :: appendOrderedString s

def appendIndexValue (v : Val) : Except Err Bytes :=
  match v.scalar? with
  | some c => .ok (scalarBytes c)
  | none => .error (.plain ("codec: non-indexable type " ++ v.typeName))

/-- The string up to the terminator and the bytes consumed, terminator included. -/
def decodeOrderedString : Bytes → Except Err (Str × Nat)
  | [] => .error .shortBuffer
  | c :: rest =>
    if c ≠ strEsc then do
      let (s, n) ← decodeOrderedString rest
      return (c :: s, n + 1)
    else
      match rest with
      | [] => .error .shortBuffer
      | d :: more =>
        if d = strTerm then .ok ([], 2)
        else if d = strFF then do
          let (s, n) ← decodeOrderedString more
          return (strEsc :: s, n + 2)
        else .error (.plain ("codec: invalid escape sequence 0x00 0x" ++ hexByte d))

def intOfBits (u : UInt64) : Int64 := (u ^^^ topBit).toInt64

def floatOfBits (u : UInt64) : Binary64 :=
  if u &&& topBit ≠ 0 then ⟨u &&& ~~~topBit⟩ else ⟨~~~u⟩

/-- One value from the start of `src`, and the number of bytes it takes. -/
def decodeIndexValue (src : Bytes) : Except Err (Scalar × Nat) :=
  match src with
  | [] => .error .shortBuffer
  | tag :: rest =>
    if tag = tagNull then .ok (.null, 1)
    else if tag = tagBool then
      match rest with
      | [] => .error .shortBuffer
      | b :: _ => .ok (.bool (b ≠ 0), 2)
    else if tag = tagInt then
      if rest.length < 8 then .error .shortBuffer
      else .ok (.int (intOfBits (uint64OfBytes (rest.take 8))), 9)
    else if tag = tagFloat then
      if rest.length < 8 then .error .shortBuffer
      else .ok (.float (floatOfBits (uint64OfBytes (rest.take 8))), 9)
    else if tag = tagStr then do
      let (s, n) ← decodeOrderedString rest
      return (.str s, 1 + n)
    else .error (.plain ("codec: unknown value tag 0x" ++ hexByte tag))

/-- The terminator is found exactly where it was written.
Witness: an escaped zero is followed by 0xFF, so a string never ends early.
-/
theorem decodeOrderedString_append (s : Str) (suffix : Bytes)
    : decodeOrderedString (appendOrderedString s ++ suffix)
      = .ok (s, (appendOrderedString s).length) := by
  induction s with
  | nil => simp [appendOrderedString, decodeOrderedString, strTerm, strEsc]
  | cons c rest ih =>
    by_cases zero : c = strEsc
    · subst zero
      simp [appendOrderedString, decodeOrderedString, ih, strTerm, strEsc, strFF]
    · rw [appendOrderedString, if_neg zero, cons_append, decodeOrderedString.eq_def]
      simp [zero, ih]

@[simp] theorem intOfBits_intBits (i : Int64) : intOfBits (intBits i) = i := by
  rw [intOfBits, intBits, UInt64.xor_assoc, UInt64.xor_self, UInt64.xor_zero]
  rfl

@[simp] theorem floatOfBits_floatBits (f : Binary64) : floatOfBits (floatBits f) = f := by
  obtain ⟨u⟩ := f
  have bound := u.toNat_lt
  by_cases top : u &&& topBit ≠ 0
  · have high := (topBit_set_iff u).mp top
    have low : ¬ (~~~u &&& topBit ≠ 0) := by
      rw [topBit_set_iff, toNat_complement]
      omega
    simp only [floatBits, floatOfBits, if_pos top, if_neg low, UInt64.not_not]
  · have low := mt (topBit_set_iff u).mpr top
    have high : (u ||| topBit) &&& topBit ≠ 0 := by
      rw [topBit_set_iff, toNat_or_topBit (by omega)]
      omega
    simp only [floatBits, floatOfBits, if_neg top, if_pos high, Binary64.mk.injEq]
    apply UInt64.toNat_inj.mp
    rw [toNat_clear_topBit, toNat_or_topBit (by omega)]
    omega

/-- A value is read back from the front of any buffer, floats bit for bit. -/
theorem decodeIndexValue_append (c : Scalar) (suffix : Bytes)
    : decodeIndexValue (scalarBytes c ++ suffix) = .ok (c, (scalarBytes c).length) := by
  cases c with
  | null => rfl
  | bool b => cases b <;> rfl
  | int i =>
    have word : (uint64Bytes (intBits i) ++ suffix).take 8 = uint64Bytes (intBits i) :=
      take_left' (length_uint64Bytes _)
    simp [scalarBytes, decodeIndexValue, tagNull, tagBool, tagInt, word]
  | float f =>
    have word : (uint64Bytes (floatBits f) ++ suffix).take 8 = uint64Bytes (floatBits f) :=
      take_left' (length_uint64Bytes _)
    simp [scalarBytes, decodeIndexValue, tagNull, tagBool, tagInt, tagFloat, word]
  | str s =>
    simp [scalarBytes, decodeIndexValue, tagNull, tagBool, tagInt, tagFloat, tagStr,
      decodeOrderedString_append, Nat.add_comm]

/-- Encodings are self-delimiting: equal buffers that start with two encodings start with
the same one.
-/
theorem scalarBytes_append_inj {a b : Scalar} {x y : Bytes}
    : scalarBytes a ++ x = scalarBytes b ++ y ↔ a = b ∧ x = y := by
  constructor
  · intro h
    have decoded : (Except.ok (a, (scalarBytes a).length) : Except Err (Scalar × Nat))
        = .ok (b, (scalarBytes b).length) := by
      rw [← decodeIndexValue_append a x, ← decodeIndexValue_append b y, h]
    obtain ⟨rfl, _⟩ := Prod.mk.inj (Except.ok.inj decoded)
    exact ⟨rfl, append_cancel_left h⟩
  · rintro ⟨rfl, rfl⟩
    rfl

theorem scalarBytes_inj {a b : Scalar} : scalarBytes a = scalarBytes b ↔ a = b := by
  have h := scalarBytes_append_inj (a := a) (b := b) (x := []) (y := [])
  simpa using h

end Intreccio.Codec
