import RubbishStore.Lib.Text
import Mathlib.Algebra.Group.Nat.Defs
import Mathlib.Data.List.Range

/- MD5. The message, a one bit, zeros and its length in bits are cut into blocks of
   64 bytes; each block mixes its sixteen words into four registers in sixty-four
   steps. A digest is sixteen bytes, whatever the message (`digest_length`), and is
   written as thirty-two hexadecimal digits, which `packH` reads back. -/
namespace RubbishStore.Lib.Md5

structure Registers where
  a : UInt32
  b : UInt32
  c : UInt32
  d : UInt32
  deriving DecidableEq, Repr

def Registers.start : Registers := ⟨0x67452301, 0xefcdab89, 0x98badcfe, 0x10325476⟩

/-- The four rotations of each round. -/
def rotations : List UInt32 := [7, 12, 17, 22, 5, 9, 14, 20, 4, 11, 16, 23, 6, 10, 15, 21]

/-- The integer parts of the sines of `1` to `64`, times `2 ^ 32`. -/
def sines : List UInt32 :=
  [0xd76aa478, 0xe8c7b756, 0x242070db, 0xc1bdceee, 0xf57c0faf, 0x4787c62a, 0xa8304613, 0xfd469501,
   0x698098d8, 0x8b44f7af, 0xffff5bb1, 0x895cd7be, 0x6b901122, 0xfd987193, 0xa679438e, 0x49b40821,
   0xf61e2562, 0xc040b340, 0x265e5a51, 0xe9b6c7aa, 0xd62f105d, 0x02441453, 0xd8a1e681, 0xe7d3fbc8,
   0x21e1cde6, 0xc33707d6, 0xf4d50d87, 0x455a14ed, 0xa9e3e905, 0xfcefa3f8, 0x676f02d9, 0x8d2a4c8a,
   0xfffa3942, 0x8771f681, 0x6d9d6122, 0xfde5380c, 0xa4beea44, 0x4bdecfa9, 0xf6bb4b60, 0xbebfbc70,
   0x289b7ec6, 0xeaa127fa, 0xd4ef3085, 0x04881d05, 0xd9d4d039, 0xe6db99e5, 0x1fa27cf8, 0xc4ac5665,
   0xf4292244, 0x432aff97, 0xab9423a7, 0xfc93a039, 0x655b59c3, 0x8f0ccc92, 0xffeff47d, 0x85845dd1,
   0x6fa87e4f, 0xfe2ce6e0, 0xa3014314, 0x4e0811a1, 0xf7537e82, 0xbd3af235, 0x2ad7d2bb, 0xeb86d391]

def rotateLeft (x n : UInt32) : UInt32 := (x <<< n) ||| (x >>> (32 - n))

/-- A word is stored with its lowest byte first. -/
def wordBytes (x : UInt32) : Octets :=
  [x.toUInt8, (x >>> 8).toUInt8, (x >>> 16).toUInt8, (x >>> 24).toUInt8]

def word (block : Octets) (i : Nat) : UInt32 :=
  let byte := fun k => (block.getD (4 * i + k) 0).toUInt32
  byte 0 ||| byte 1 <<< 8 ||| byte 2 <<< 16 ||| byte 3 <<< 24

/-- Step `i` of a block. -/
def step (block : Octets) (r : Registers) (i : Nat) : Registers :=
  let (f, g) : UInt32 × Nat :=
    match i / 16 with
    | 0 => ((r.b &&& r.c) ||| (~~~r.b &&& r.d), i)
    | 1 => ((r.d &&& r.b) ||| (~~~r.d &&& r.c), (5 * i + 1) % 16)
    | 2 => (r.b ^^^ r.c ^^^ r.d, (3 * i + 5) % 16)
    | _ => (r.c ^^^ (r.b ||| ~~~r.d), 7 * i % 16)
  let f := f + r.a + sines.getD i 0 + word block g
  ⟨r.d, r.b + rotateLeft f (rotations.getD (4 * (i / 16) + i % 4) 0), r.b, r.c⟩

def addBlock (r : Registers) (block : Octets) : Registers :=
  let s := (List.range 64).foldl (step block) r
  ⟨r.a + s.a, r.b + s.b, r.c + s.c, r.d + s.d⟩

/-- The length in bits, modulo `2 ^ 64`, is the last eight bytes. -/
def pad (message : Octets) : Octets :=
  let bits := 8 * message.length
  message ++ [0x80] ++ List.replicate ((119 - message.length % 64) % 64) 0 ++
    wordBytes bits.toUInt32 ++ wordBytes (bits / 2 ^ 32).toUInt32

/-- The sixteen bytes. -/
def digest (message : Octets) : Octets :=
  let padded := pad message
  let r := (List.range' 0 (padded.length / 64) 64).foldl
    (fun r i => addBlock r ((padded.drop i).take 64)) Registers.start
  wordBytes r.a ++ wordBytes r.b ++ wordBytes r.c ++ wordBytes r.d

theorem digest_length (message : Octets) : (digest message).length = 16 := rfl

/-! The hexadecimal text. -/

/-- `0`–`9`, `a`–`f` -/
def hexDigit (n : UInt8) : UInt8 := if n < 10 then 48 + n else 87 + n

/-- Either case is read; what is no digit counts as zero. -/
def hexValue (b : UInt8) : UInt8 :=
  if 48 ≤ b ∧ b ≤ 57 then b - 48
  else if 65 ≤ b ∧ b ≤ 70 then b - 55
  else if 97 ≤ b ∧ b ≤ 102 then b - 87
  else 0

def hex (s : Octets) : Octets := s.flatMap fun b => [hexDigit (b / 16), hexDigit (b % 16)]

def md5 (message : Octets) : Octets := hex (digest message)

/-- `pack('H*', …)`: a digit without a partner is the upper half of a byte. -/
def packH : Octets → Octets
  | [] => []
  | [x] => [16 * hexValue x]
  | x :: y :: s => (16 * hexValue x + hexValue y) :: packH s

theorem hex_byte : ∀ b, 16 * hexValue (hexDigit (b / 16)) + hexValue (hexDigit (b % 16)) = b :=
  forall_byte (by decide +kernel)

theorem packH_hex (s : Octets) : packH (hex s) = s := by
  induction s with
  | nil => rfl
  | cons b s ih =>
    have hcons : hex (b :: s) = hexDigit (b / 16) :: hexDigit (b % 16) :: hex s := List.flatMap_cons
    rw [hcons, packH, hex_byte, ih]

theorem packH_md5 (message : Octets) : packH (md5 message) = digest message := packH_hex _

example : md5 [] = octets "d41d8cd98f00b204e9800998ecf8427e" := by decide +kernel

end RubbishStore.Lib.Md5
