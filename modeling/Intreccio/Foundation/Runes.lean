import Intreccio.Foundation.Words

/-! Byte strings as UTF-8 text: the code points of a string and the string of code points.
A byte that starts no valid sequence stands for one replacement character.
-/

namespace Words

/-- U+FFFD. -/
def replacement : Nat := 0xFFFD

def isContinuation (c : UInt8) : Bool := 0x80 ≤ c && c ≤ 0xBF

/-- The bounds of the second byte, which exclude overlong forms, surrogates and what lies
above U+10FFFF.
-/
def secondBounds (first : UInt8) : UInt8 × UInt8 :=
  if first = 0xE0 then (0xA0, 0xBF)
  else if first = 0xED then (0x80, 0x9F)
  else if first = 0xF0 then (0x90, 0xBF)
  else if first = 0xF4 then (0x80, 0x8F)
  else (0x80, 0xBF)

/-- The number of bytes of the sequence that `first` starts, 0 if it starts none. -/
def sequenceLength (first : UInt8) : Nat :=
  if first < 0x80 then 1
  else if 0xC2 ≤ first && first ≤ 0xDF then 2
  else if 0xE0 ≤ first && first ≤ 0xEF then 3
  else if 0xF0 ≤ first && first ≤ 0xF4 then 4
  else 0

def decodeRune (first : UInt8) (rest : Bytes) : Nat × Nat :=
  let (lo, hi) := secondBounds first
  let low (c : UInt8) : Nat := c.toNat % 64
  match sequenceLength first, rest with
  | 1, _ => (first.toNat, 1)
  | 2, b :: _ => if lo ≤ b && b ≤ hi then (first.toNat % 32 * 64 + low b, 2) else (replacement, 1)
  | 3, b :: c :: _ =>
    if lo ≤ b && b ≤ hi && isContinuation c then
      ((first.toNat % 16 * 64 + low b) * 64 + low c, 3)
    else (replacement, 1)
  | 4, b :: c :: d :: _ =>
    if lo ≤ b && b ≤ hi && isContinuation c && isContinuation d then
      (((first.toNat % 8 * 64 + low b) * 64 + low c) * 64 + low d, 4)
    else (replacement, 1)
  | _, _ => (replacement, 1)

/-- The code points of a string, each with its bytes. `skip` bytes belong to the one before. -/
def runeSpans : Nat → Bytes → List (Nat × Bytes)
  | _, [] => []
  | 0, c :: rest =>
    let (rune, width) := decodeRune c rest
    (rune, (c :: rest).take width) :: runeSpans (width - 1) rest
  | skip + 1, _ :: rest => runeSpans skip rest

def runes (s : Bytes) : List Nat := (runeSpans 0 s).map Prod.fst

def encodeRune (rune : Nat) : Bytes :=
  let tail (n : Nat) : UInt8 := UInt8.ofNat (0x80 + n % 64)
  if rune < 0x80 then [UInt8.ofNat rune]
  else if rune < 0x800 then [UInt8.ofNat (0xC0 + rune / 64), tail rune]
  else if rune < 0x10000 then
    [UInt8.ofNat (0xE0 + rune / 4096), tail (rune / 64), tail rune]
  else
    [UInt8.ofNat (0xF0 + rune / 262144), tail (rune / 4096), tail (rune / 64), tail rune]

def ofRunes (rs : List Nat) : Bytes := rs.flatMap encodeRune

def isSpace (rune : Nat) : Bool :=
  (9 ≤ rune && rune ≤ 13) || rune = 32 || rune = 0x85 || rune = 0xA0 || rune = 0x1680
    || (0x2000 ≤ rune && rune ≤ 0x200A) || rune = 0x2028 || rune = 0x2029 || rune = 0x202F
    || rune = 0x205F || rune = 0x3000

/-- The string without the white space at its two ends. -/
def trimSpace (s : Bytes) : Bytes :=
  let inner := (runeSpans 0 s).dropWhile (fun r => isSpace r.1)
  ((inner.reverse.dropWhile (fun r => isSpace r.1)).reverse.map Prod.snd).flatten

end Words
