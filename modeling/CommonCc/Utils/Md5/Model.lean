import CommonCc.Utils.Sha1.Model

/-!
# `MD5`

The digest with its block buffer.  A pointer is given as the bytes that can be read from there
on, so that reading behind them is a fault.
-/

namespace CommonCc

/-- The four words of `state`, by their role in a step. -/
structure Md5Words where
  a : UInt32
  b : UInt32
  c : UInt32
  d : UInt32
deriving Repr, DecidableEq

structure MD5 where
  finalized : Bool
  buffer : Bytes
  count0 : Nat
  count1 : Nat
  state : Md5Words
  digest : Bytes
deriving Repr, DecidableEq

namespace MD5

/-! ## One block -/

def F1 (x y z : UInt32) : UInt32 := (x &&& y) ||| (~~~x &&& z)

def G1 (x y z : UInt32) : UInt32 := (x &&& z) ||| (y &&& ~~~z)

def H1 (x y z : UInt32) : UInt32 := x ^^^ y ^^^ z

def I1 (x y z : UInt32) : UInt32 := y ^^^ (x ||| ~~~z)

def rotate_left (x n : UInt32) : UInt32 := (x <<< n) ||| (x >>> (32 - n))

/-- `FF1`, `GG1`, `HH1` and `II1`.  The words move on by one role, as the arguments of the next
call do. -/
def step (f : UInt32 → UInt32 → UInt32 → UInt32) (w : Md5Words) (x s ac : UInt32) : Md5Words :=
  ⟨w.d, rotate_left (w.a + f w.b w.c w.d + x + ac) s + w.b, w.b, w.c⟩

/-- `decode` of the word `x[i]`. -/
def word (block : Bytes) (i : Nat) : UInt32 :=
  let byte := fun j => (block.getD (i * 4 + j) 0).toUInt32
  byte 0 ||| (byte 1 <<< 8) ||| (byte 2 <<< 16) ||| (byte 3 <<< 24)

/-- The steps of a round: the word of the block, the shift and the constant of each. -/
def round1 : List (Nat × UInt32 × UInt32) :=
  [(0, 7, 0xd76aa478), (1, 12, 0xe8c7b756), (2, 17, 0x242070db), (3, 22, 0xc1bdceee),
   (4, 7, 0xf57c0faf), (5, 12, 0x4787c62a), (6, 17, 0xa8304613), (7, 22, 0xfd469501),
   (8, 7, 0x698098d8), (9, 12, 0x8b44f7af), (10, 17, 0xffff5bb1), (11, 22, 0x895cd7be),
   (12, 7, 0x6b901122), (13, 12, 0xfd987193), (14, 17, 0xa679438e), (15, 22, 0x49b40821)]

def round2 : List (Nat × UInt32 × UInt32) :=
  [(1, 5, 0xf61e2562), (6, 9, 0xc040b340), (11, 14, 0x265e5a51), (0, 20, 0xe9b6c7aa),
   (5, 5, 0xd62f105d), (10, 9, 0x2441453), (15, 14, 0xd8a1e681), (4, 20, 0xe7d3fbc8),
   (9, 5, 0x21e1cde6), (14, 9, 0xc33707d6), (3, 14, 0xf4d50d87), (8, 20, 0x455a14ed),
   (13, 5, 0xa9e3e905), (2, 9, 0xfcefa3f8), (7, 14, 0x676f02d9), (12, 20, 0x8d2a4c8a)]

def round3 : List (Nat × UInt32 × UInt32) :=
  [(5, 4, 0xfffa3942), (8, 11, 0x8771f681), (11, 16, 0x6d9d6122), (14, 23, 0xfde5380c),
   (1, 4, 0xa4beea44), (4, 11, 0x4bdecfa9), (7, 16, 0xf6bb4b60), (10, 23, 0xbebfbc70),
   (13, 4, 0x289b7ec6), (0, 11, 0xeaa127fa), (3, 16, 0xd4ef3085), (6, 23, 0x4881d05),
   (9, 4, 0xd9d4d039), (12, 11, 0xe6db99e5), (15, 16, 0x1fa27cf8), (2, 23, 0xc4ac5665)]

def round4 : List (Nat × UInt32 × UInt32) :=
  [(0, 6, 0xf4292244), (7, 10, 0x432aff97), (14, 15, 0xab9423a7), (5, 21, 0xfc93a039),
   (12, 6, 0x655b59c3), (3, 10, 0x8f0ccc92), (10, 15, 0xffeff47d), (1, 21, 0x85845dd1),
   (8, 6, 0x6fa87e4f), (15, 10, 0xfe2ce6e0), (6, 15, 0xa3014314), (13, 21, 0x4e0811a1),
   (4, 6, 0xf7537e82), (11, 10, 0xbd3af235), (2, 15, 0x2ad7d2bb), (9, 21, 0xeb86d391)]

def rounds (f : UInt32 → UInt32 → UInt32 → UInt32) (steps : List (Nat × UInt32 × UInt32))
    (block : Bytes) (w : Md5Words) : Md5Words :=
  steps.foldl (fun w p => step f w (word block p.1) p.2.1 p.2.2) w

/-- What a block makes of the words. -/
def compress (state : Md5Words) (block : Bytes) : Md5Words :=
  let w := rounds I1 round4 block (rounds H1 round3 block
    (rounds G1 round2 block (rounds F1 round1 block state)))
  ⟨state.a + w.a, state.b + w.b, state.c + w.c, state.d + w.d⟩

def transform (s : MD5) (block : Bytes) : MD5 := { s with state := compress s.state block }

/-! ## The driver -/

def firstWords : Md5Words := ⟨0x67452301, 0xefcdab89, 0x98badcfe, 0x10325476⟩

/-- `init`.  The buffer and the digest keep what was in them. -/
def init (s : MD5) : MD5 :=
  { s with finalized := false, count0 := 0, count1 := 0, state := firstWords }

/-- The `n` bytes behind the pointer `&input[i]`. -/
def readBytes (input : Bytes) (i n : Nat) : Except Fault Bytes :=
  if i + n ≤ input.length then .ok ((input.drop i).take n) else .error .outOfBounds

/-- `memcpy` to `&buffer[index]`. -/
def fill (s : MD5) (index : Nat) (bytes : Bytes) : MD5 :=
  { s with buffer := s.buffer.take index ++ bytes ++ s.buffer.drop (index + bytes.length) }

/-- The loop of `update` over the blocks of the input. -/
def transformFrom (input : Bytes) (length : Nat) (fuel i : Nat) (s : MD5) :
    Except Fault (MD5 × Nat) :=
  if u32 (i + 64) ≤ length then
    match fuel with
    | 0 => .error .diverges
    | fuel + 1 => do
        let block ← readBytes input i 64
        transformFrom input length fuel (u32 (i + 64)) (s.transform block)
  else .ok (s, i)

/-- The bits of `count`, with `length` more bytes. -/
def addCount (s : MD5) (length : Nat) : MD5 :=
  let bits := u32 (length * 8)
  let low := u32 (s.count0 + bits)
  let high := if low < bits then u32 (s.count1 + 1) else s.count1
  { s with count0 := low, count1 := u32 (high + length / 536870912) }

/-- `update`.  The index `i` of the loop takes at most `2^26` values. -/
def update (s : MD5) (input : Bytes) (length : Nat) : Except Fault MD5 := do
  let index := s.count0 / 8 % 64
  let s := s.addCount length
  let firstpart := 64 - index
  if firstpart ≤ length then
    let first ← readBytes input 0 firstpart
    let s := s.fill index first
    let (s, i) ← transformFrom input length 67108864 firstpart (s.transform s.buffer)
    let rest ← readBytes input i (length - i)
    .ok (s.fill 0 rest)
  else
    let rest ← readBytes input 0 length
    .ok (s.fill index rest)

def padding : Bytes := 0x80 :: List.replicate 63 0

/-- `encode` of the words. -/
def encodeWords (w : Md5Words) : Bytes :=
  u32Bytes w.a.toNat ++ u32Bytes w.b.toNat ++ u32Bytes w.c.toNat ++ u32Bytes w.d.toNat

def finalize (s : MD5) : Except Fault MD5 :=
  if s.finalized then .ok s
  else do
    let bits := u32Bytes s.count0 ++ u32Bytes s.count1
    let index := s.count0 / 8 % 64
    let padLen := if index < 56 then 56 - index else 120 - index
    let s ← s.update padding padLen
    let s ← s.update bits 8
    .ok { s with digest := encodeWords s.state, buffer := List.replicate 64 0, count0 := 0,
                 count1 := 0, finalized := true }

/-- `%02x` of the bytes. -/
def hexBytes (bytes : Bytes) : Bytes :=
  bytes.flatMap fun c => [SHA1.hexDigit (c.toNat / 16), SHA1.hexDigit (c.toNat % 16)]

def hexdigest (s : MD5) : Bytes := if s.finalized then hexBytes s.digest else []

/-- `MD5(text)`, in the memory of `s`.  The length is a 32-bit one, and a zero stands behind the
text. -/
def ofText (s : MD5) (text : Bytes) : Except Fault MD5 := do
  let s ← s.init.update (text ++ [0]) (u32 text.length)
  s.finalize

def DigestHex (s : MD5) (str : Bytes) : Except Fault Bytes := do
  let md5 ← s.ofText str
  .ok md5.hexdigest

/-- `Digest64`: the first eight bytes of the digest as an integer. -/
def Digest64 (s : MD5) (str : Bytes) : Except Fault Nat := do
  let md5 ← s.ofText str
  .ok (leValue (md5.digest.take 8))

example : DigestHex ⟨false, List.replicate 64 7, 0, 0, firstWords, List.replicate 16 7⟩
    (ascii ['a', 'b', 'c']) = .ok (ascii "900150983cd24fb0d6963f7d28e17f72".toList) := by
  decide +kernel

end MD5

end CommonCc
