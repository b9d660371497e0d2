import Mathlib.Data.List.Lex
import Mathlib.Data.Nat.Bitwise
import Mathlib.Order.Basic
import Mathlib.Tactic.Ring

/-! Fixed-width words as byte strings: big-endian digits, base-128 varints and zigzag.
Byte strings carry the lexicographic order, in which big-endian words sort by value.
-/

instance instLinearOrderUInt8 : LinearOrder UInt8 where
  le_refl := fun _ => UInt8.le_refl _
  le_trans := fun _ _ _ => UInt8.le_trans
  le_antisymm := fun _ _ => UInt8.le_antisymm
  le_total := UInt8.le_total
  lt_iff_le_not_ge := fun a b => by
    simp only [UInt8.le_iff_toNat_le, UInt8.lt_iff_toNat_lt]
    omega
  toDecidableLE := inferInstance
  toDecidableLT := inferInstance
  toDecidableEq := inferInstance

instance instLinearOrderUInt32 : LinearOrder UInt32 where
  le_refl := fun _ => UInt32.le_refl _
  le_trans := fun _ _ _ => UInt32.le_trans
  le_antisymm := fun _ _ => UInt32.le_antisymm
  le_total := UInt32.le_total
  lt_iff_le_not_ge := fun a b => by
    simp only [UInt32.le_iff_toNat_le, UInt32.lt_iff_toNat_lt]
    omega
  toDecidableLE := inferInstance
  toDecidableLT := inferInstance
  toDecidableEq := inferInstance

instance instLinearOrderUInt64 : LinearOrder UInt64 where
  le_refl := fun _ => UInt64.le_refl _
  le_trans := fun _ _ _ => UInt64.le_trans
  le_antisymm := fun _ _ => UInt64.le_antisymm
  le_total := UInt64.le_total
  lt_iff_le_not_ge := fun a b => by
    simp only [UInt64.le_iff_toNat_le, UInt64.lt_iff_toNat_lt]
    omega
  toDecidableLE := inferInstance
  toDecidableLT := inferInstance
  toDecidableEq := inferInstance

instance instLawfulBEqUInt32 : LawfulBEq UInt32 := inferInstance

instance instLawfulBEqBytes : LawfulBEq (List UInt8) := inferInstance

namespace Words

open List

abbrev Bytes := List UInt8

/-- Byte strings with one stem sort by what follows it. -/
theorem append_lt_append_left {stem a b : Bytes} : stem ++ a < stem ++ b ↔ a < b := by
  induction stem with
  | nil => rfl
  | cons c rest ih => simp [ih]

theorem le_append (stem more : Bytes) : stem ≤ stem ++ more := by
  rw [← not_lt]
  induction stem with
  | nil => exact not_lt_nil _
  | cons c rest ih => simpa using ih

/-- A difference before either string ends decides, whatever follows. -/
theorem append_lt_append_of_lt {a b : Bytes} (x y : Bytes) (below : a < b) (apart : ¬ a <+: b)
    : a ++ x < b ++ y := by
  induction a generalizing b with
  | nil => exact absurd nil_prefix apart
  | cons c rest ih =>
    cases b with
    | nil => exact absurd below (not_lt_nil _)
    | cons d more =>
      rw [cons_append, cons_append, cons_lt_cons_iff]
      rcases cons_lt_cons_iff.mp below with less | ⟨rfl, less⟩
      · exact Or.inl less
      · refine Or.inr ⟨rfl, ih less (fun starts => apart ?_)⟩
        exact cons_prefix_cons.mpr ⟨rfl, starts⟩

/-- The `n` low base-256 digits of `x`, most significant first. -/
def bigEndian : Nat → Nat → Bytes
  | 0, _ => []
  | n + 1, x => UInt8.ofNat (x / 256 ^ n) :: bigEndian n (x % 256 ^ n)

/-- The number a byte string spells in base 256. -/
def ofBigEndian (b : Bytes) : Nat := b.foldl (fun acc byte => acc * 256 + byte.toNat) 0

@[simp] theorem length_bigEndian (n x : Nat) : (bigEndian n x).length = n := by
  induction n generalizing x with
  | zero => rfl
  | succ n ih => simp [bigEndian, ih]

theorem foldl_digits (acc : Nat) (b : Bytes)
    : b.foldl (fun acc byte => acc * 256 + byte.toNat) acc
      = acc * 256 ^ b.length + ofBigEndian b := by
  induction b generalizing acc with
  | nil => simp [ofBigEndian]
  | cons byte rest ih =>
    rw [ofBigEndian, foldl_cons, foldl_cons, ih, ih (0 * 256 + byte.toNat),
      length_cons, pow_succ]
    ring

theorem toNat_digit {n x : Nat} (h : x < 256 ^ (n + 1))
    : (UInt8.ofNat (x / 256 ^ n)).toNat = x / 256 ^ n := by
  have below : x / 256 ^ n < 256 :=
    Nat.div_lt_of_lt_mul (by rwa [Nat.pow_succ] at h)
  exact UInt8.toNat_ofNat_of_lt' below

@[simp] theorem ofBigEndian_bigEndian {n x : Nat} (h : x < 256 ^ n) : ofBigEndian (bigEndian n x) = x := by
  induction n generalizing x with
  | zero =>
    have zero : x = 0 := by simpa using h
    simp [bigEndian, ofBigEndian, zero]
  | succ n ih =>
    have tail := ih (Nat.mod_lt x (Nat.pow_pos (n := n) (by decide : 0 < 256)))
    rw [bigEndian, ofBigEndian, foldl_cons, foldl_digits, tail, toNat_digit h,
      length_bigEndian]
    have split := Nat.div_add_mod x (256 ^ n)
    rw [Nat.zero_mul, Nat.zero_add, Nat.mul_comm]
    exact split

theorem bigEndian_inj {n x y : Nat} (hx : x < 256 ^ n) (hy : y < 256 ^ n)
    : bigEndian n x = bigEndian n y ↔ x = y := by
  refine ⟨fun h => ?_, fun h => h ▸ rfl⟩
  rw [← ofBigEndian_bigEndian hx, h, ofBigEndian_bigEndian hy]

/-- Big-endian words of one width sort by value.
Witness: compare the leading digits, then the remainders by induction on the width.
-/
theorem bigEndian_lt_iff {n x y : Nat} (hx : x < 256 ^ n) (hy : y < 256 ^ n)
    : bigEndian n x < bigEndian n y ↔ x < y := by
  induction n generalizing x y with
  | zero =>
    have zero : x = 0 ∧ y = 0 := by
      constructor
      · simpa using hx
      · simpa using hy
    simp [zero]
  | succ n ih =>
    have positive : 0 < 256 ^ n := Nat.pow_pos (by decide)
    have tail := ih (Nat.mod_lt x positive) (Nat.mod_lt y positive)
    have hxs := Nat.div_add_mod x (256 ^ n)
    have hys := Nat.div_add_mod y (256 ^ n)
    have hxm := Nat.mod_lt x positive
    have hym := Nat.mod_lt y positive
    rw [bigEndian, bigEndian, cons_lt_cons_iff, tail, UInt8.lt_iff_toNat_lt,
      ← UInt8.toNat_inj, toNat_digit hx, toNat_digit hy]
    set p := 256 ^ n
    constructor
    · rintro (below | ⟨same, below⟩)
      · have step : p * (x / p) + p ≤ p * (y / p) := by
          calc p * (x / p) + p = p * (x / p + 1) := by ring
            _ ≤ p * (y / p) := Nat.mul_le_mul_left p below
        omega
      · rw [same] at hxs
        omega
    · intro below
      rcases Nat.lt_trichotomy (x / p) (y / p) with less | same | more
      · exact Or.inl less
      · rw [same] at hxs
        exact Or.inr ⟨same, by omega⟩
      · have step : p * (y / p) + p ≤ p * (x / p) := by
          calc p * (y / p) + p = p * (y / p + 1) := by ring
            _ ≤ p * (x / p) := Nat.mul_le_mul_left p more
        omega

def uint32Bytes (v : UInt32) : Bytes := bigEndian 4 v.toNat

def uint64Bytes (v : UInt64) : Bytes := bigEndian 8 v.toNat

def uint32OfBytes (b : Bytes) : UInt32 := UInt32.ofNat (ofBigEndian b)

def uint64OfBytes (b : Bytes) : UInt64 := UInt64.ofNat (ofBigEndian b)

@[simp] theorem length_uint32Bytes (v : UInt32) : (uint32Bytes v).length = 4 :=
  length_bigEndian 4 v.toNat

@[simp] theorem length_uint64Bytes (v : UInt64) : (uint64Bytes v).length = 8 :=
  length_bigEndian 8 v.toNat

theorem uint32_bound (v : UInt32) : v.toNat < 256 ^ 4 := v.toNat_lt

theorem uint64_bound (v : UInt64) : v.toNat < 256 ^ 8 := v.toNat_lt

@[simp] theorem uint32OfBytes_uint32Bytes (v : UInt32) : uint32OfBytes (uint32Bytes v) = v := by
  rw [uint32OfBytes, uint32Bytes, ofBigEndian_bigEndian (uint32_bound v), UInt32.ofNat_toNat]

@[simp] theorem uint64OfBytes_uint64Bytes (v : UInt64) : uint64OfBytes (uint64Bytes v) = v := by
  rw [uint64OfBytes, uint64Bytes, ofBigEndian_bigEndian (uint64_bound v), UInt64.ofNat_toNat]

@[simp] theorem uint32Bytes_inj {v w : UInt32} : uint32Bytes v = uint32Bytes w ↔ v = w := by
  rw [uint32Bytes, uint32Bytes, bigEndian_inj (uint32_bound v) (uint32_bound w), UInt32.toNat_inj]

@[simp] theorem uint64Bytes_inj {v w : UInt64} : uint64Bytes v = uint64Bytes w ↔ v = w := by
  rw [uint64Bytes, uint64Bytes, bigEndian_inj (uint64_bound v) (uint64_bound w), UInt64.toNat_inj]

@[simp] theorem uint64Bytes_lt_iff {v w : UInt64} : uint64Bytes v < uint64Bytes w ↔ v < w := by
  rw [uint64Bytes, uint64Bytes, bigEndian_lt_iff (uint64_bound v) (uint64_bound w),
    UInt64.lt_iff_toNat_lt]

def topBit : UInt64 := 0x8000000000000000

theorem toNat_complement (u : UInt64) : (~~~u).toNat = 2 ^ 64 - 1 - u.toNat :=
  UInt64.toNat_not u

theorem topBit_set_iff (u : UInt64) : u &&& topBit ≠ 0 ↔ 2 ^ 63 ≤ u.toNat := by
  have bound := u.toNat_lt
  rw [ne_eq, ← UInt64.toNat_inj, UInt64.toNat_and]
  change ¬ (u.toNat &&& 2 ^ 63 = 0) ↔ _
  rw [Nat.and_two_pow, Nat.testBit_eq_decide_div_mod_eq]
  by_cases set : u.toNat / 2 ^ 63 % 2 = 1
  · simp only [set, decide_true, Bool.toNat_true]
    omega
  · simp only [set, decide_false, Bool.toNat_false]
    omega

theorem toNat_or_topBit {u : UInt64} (low : u.toNat < 2 ^ 63) : (u ||| topBit).toNat = u.toNat + 2 ^ 63 := by
  rw [UInt64.toNat_or]
  change u.toNat ||| 2 ^ 63 = _
  have sum := Nat.two_pow_add_eq_or_of_lt low 1
  rw [Nat.mul_one, Nat.or_comm] at sum
  omega

theorem toNat_xor_topBit (u : UInt64) : (u ^^^ topBit).toNat = (u.toNat + 2 ^ 63) % 2 ^ 64 := by
  have bound := u.toNat_lt
  have high := Nat.xor_div_two_pow (a := u.toNat) (b := 2 ^ 63) (n := 63)
  have low := Nat.xor_mod_two_pow (a := u.toNat) (b := 2 ^ 63) (n := 63)
  rw [UInt64.toNat_xor]
  change u.toNat ^^^ 2 ^ 63 = _
  rw [Nat.mod_self, Nat.xor_zero] at low
  rw [Nat.div_self (by decide)] at high
  rcases (by omega : u.toNat / 2 ^ 63 = 0 ∨ u.toNat / 2 ^ 63 = 1) with clear | set
  · rw [clear, Nat.zero_xor] at high
    omega
  · rw [set, Nat.xor_self] at high
    omega

/-- Two's complement: a word with the top bit set stands for a negative number. -/
theorem toInt_eq_toNat (i : Int64)
    : i.toInt = if i.toUInt64.toNat < 2 ^ 63 then (i.toUInt64.toNat : Int)
        else i.toUInt64.toNat - 2 ^ 64 := by
  change i.toBitVec.toInt = if i.toBitVec.toNat < 2 ^ 63 then (i.toBitVec.toNat : Int)
    else i.toBitVec.toNat - 2 ^ 64
  rw [BitVec.toInt_eq_toNat_cond]
  split <;> split <;> omega

theorem toNat_clear_topBit (u : UInt64) : (u &&& ~~~topBit).toNat = u.toNat % 2 ^ 63 := by
  rw [UInt64.toNat_and]
  change u.toNat &&& (2 ^ 63 - 1) = _
  rw [Nat.and_two_pow_sub_one_eq_mod]

/-- Seven bits a byte, low bits first, with the top bit set on every byte but the last. -/
def varintDigits : Nat → Nat → Bytes
  | 0, v => [UInt8.ofNat v]
  | n + 1, v =>
    if v < 128 then [UInt8.ofNat v]
    else UInt8.ofNat (v % 128 + 128) :: varintDigits n (v / 128)

/-- A 64-bit word takes at most ten bytes. -/
def uvarintBytes (v : UInt64) : Bytes := varintDigits 9 v.toNat

/-- Read the groups from position `i` on, adding them to `x`; a word that needs more than 64
bits is refused like a truncated one.
-/
def readDigits (i x : Nat) : Bytes → Option (Nat × Bytes)
  | [] => none
  | b :: rest =>
    if i = 10 then none
    else if b < 128 then
      if i = 9 ∧ 1 < b then none else some (x + b.toNat * 128 ^ i, rest)
    else readDigits (i + 1) (x + b.toNat % 128 * 128 ^ i) rest

/-- The decoded word and the bytes after it. -/
def readUvarint (b : Bytes) : Option (UInt64 × Bytes) :=
  (readDigits 0 0 b).map (fun r => (UInt64.ofNat r.1, r.2))

/-- Reading a varint's digits gives its value back and leaves what follows.
Witness: induction on the groups still allowed; the last one holds a single bit.
-/
theorem readDigits_varintDigits (n i x v : Nat) (rest : Bytes) (total : n + i = 9)
    (bound : v < 2 * 128 ^ n)
    : readDigits i x (varintDigits n v ++ rest) = some (x + v * 128 ^ i, rest) := by
  induction n generalizing i x v with
  | zero =>
    have position : i = 9 := by omega
    have small : v < 2 := by simpa using bound
    subst position
    rcases (by omega : v = 0 ∨ v = 1) with rfl | rfl <;> simp [varintDigits, readDigits]
  | succ n ih =>
    by_cases small : v < 128
    · have digit : (UInt8.ofNat v).toNat = v :=
        UInt8.toNat_ofNat_of_lt' (by change v < 256; omega)
      have low : UInt8.ofNat v < 128 := by
        rw [UInt8.lt_iff_toNat_lt, digit]
        exact small
      simp [varintDigits, small, readDigits, low, digit, show i ≠ 10 by omega,
        show i ≠ 9 by omega]
    · have digit : (UInt8.ofNat (v % 128 + 128)).toNat = v % 128 + 128 :=
        UInt8.toNat_ofNat_of_lt' (by change v % 128 + 128 < 256; omega)
      have high : ¬ UInt8.ofNat (v % 128 + 128) < 128 := by
        rw [UInt8.lt_iff_toNat_lt, digit]
        change ¬ (v % 128 + 128 < 128)
        omega
      have next := ih (i + 1) (x + v % 128 * 128 ^ i) (v / 128) (by omega)
        (by rw [pow_succ] at bound; omega)
      have split := Nat.div_add_mod v 128
      simp only [varintDigits, small, if_false, cons_append, readDigits,
        show i ≠ 10 by omega, high, digit]
      rw [show (v % 128 + 128) % 128 = v % 128 by omega, next]
      congr 2
      calc x + v % 128 * 128 ^ i + v / 128 * 128 ^ (i + 1)
          = x + (128 * (v / 128) + v % 128) * 128 ^ i := by ring
        _ = x + v * 128 ^ i := by rw [split]

@[simp] theorem readUvarint_uvarintBytes (v : UInt64) (rest : Bytes)
    : readUvarint (uvarintBytes v ++ rest) = some (v, rest) := by
  have bound : v.toNat < 2 * 128 ^ 9 := v.toNat_lt
  simp [readUvarint, uvarintBytes, readDigits_varintDigits 9 0 0 v.toNat rest rfl bound]

/-- Signed words are folded onto unsigned ones so that small magnitudes stay short. -/
def zigzag (v : Int64) : UInt64 :=
  if v < 0 then ~~~(v.toUInt64 <<< 1) else v.toUInt64 <<< 1

def unzigzag (u : UInt64) : Int64 :=
  if u &&& 1 ≠ 0 then ~~~(u >>> 1).toInt64 else (u >>> 1).toInt64

theorem negative_iff (v : Int64) : v < 0 ↔ 2 ^ 63 ≤ v.toUInt64.toNat := by
  have bound := v.toUInt64.toNat_lt
  rw [Int64.lt_iff_toInt_lt, toInt_eq_toNat v, show (0 : Int64).toInt = 0 from rfl]
  split <;> omega

theorem low_bit (u : UInt64) : u &&& 1 ≠ 0 ↔ u.toNat % 2 = 1 := by
  rw [ne_eq, ← UInt64.toNat_inj, UInt64.toNat_and]
  simp [Nat.and_one_is_mod]

theorem toNat_half (u : UInt64) : (u >>> 1).toNat = u.toNat / 2 := by
  rw [UInt64.toNat_shiftRight]
  simp [Nat.shiftRight_eq_div_pow]

theorem toNat_double (u : UInt64) : (u <<< 1).toNat = u.toNat * 2 % 2 ^ 64 := by
  rw [UInt64.toNat_shiftLeft]
  simp [Nat.shiftLeft_eq]

/-- Folding loses nothing.
Witness: doubling drops the sign bit, which the complement puts back as the low bit.
-/
@[simp] theorem unzigzag_zigzag (v : Int64) : unzigzag (zigzag v) = v := by
  have bound := v.toUInt64.toNat_lt
  apply Int64.toBitVec.inj
  apply BitVec.eq_of_toNat_eq
  change (unzigzag (zigzag v)).toUInt64.toNat = v.toUInt64.toNat
  by_cases negative : v < 0
  · have high := (negative_iff v).mp negative
    have odd : ~~~(v.toUInt64 <<< 1) &&& 1 ≠ 0 := by
      rw [low_bit, toNat_complement, toNat_double]
      omega
    simp only [zigzag, negative, if_true, unzigzag, if_pos odd, Int64.toUInt64_not,
      UInt64.toUInt64_toInt64]
    rw [toNat_complement, toNat_half, toNat_complement, toNat_double]
    omega
  · have low := mt (negative_iff v).mpr negative
    have even : ¬ (v.toUInt64 <<< 1 &&& 1 ≠ 0) := by
      rw [low_bit, toNat_double]
      omega
    simp only [zigzag, negative, if_false, unzigzag, if_neg even, UInt64.toUInt64_toInt64]
    rw [toNat_half, toNat_double]
    omega

end Words
