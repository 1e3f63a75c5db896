import CommonCc.Base

/-!
# `SHA1`

The driver `SHA_GO` with its block buffer.  `processed` keeps the blocks that
`ProcessMessageBlock` is given, in order.  The lengths here are those of strings that `int` can
count.
-/

namespace CommonCc

/-- The five words of `H`. -/
structure Digest where
  a : UInt32
  b : UInt32
  c : UInt32
  d : UInt32
  e : UInt32
deriving Repr, DecidableEq

structure SHA1 where
  H : Digest
  Length_Low : Nat
  Length_High : Nat
  Message_Block : Bytes
  Message_Block_Index : Nat
  processed : List Bytes
deriving Repr, DecidableEq

namespace SHA1

/-! ## One block -/

def CircularShift (bits word : UInt32) : UInt32 := (word <<< bits) ||| (word >>> (32 - bits))

/-- `W[t]` for `t < 16`. -/
def word (Message_Block : Bytes) (t : Nat) : UInt32 :=
  let byte := fun i => (Message_Block.getD (t * 4 + i) 0).toUInt32
  (byte 0 <<< 24) ||| (byte 1 <<< 16) ||| (byte 2 <<< 8) ||| byte 3

/-- `n` further words, where `w` holds the words so far, the newest first. -/
def schedule (w : List UInt32) : Nat → List UInt32
  | 0 => w
  | n + 1 =>
      schedule (CircularShift 1 (w.getD 2 0 ^^^ w.getD 7 0 ^^^ w.getD 13 0 ^^^ w.getD 15 0) :: w) n

/-- The words `W[0]` to `W[79]`. -/
def W (Message_Block : Bytes) : List UInt32 :=
  (schedule ((List.range 16).map (word Message_Block)).reverse 64).reverse

/-- What round `t` adds besides `E` and `W[t]`. -/
def mixed (t : Nat) (s : Digest) : UInt32 :=
  if t < 20 then ((s.b &&& s.c) ||| (~~~s.b &&& s.d)) + 0x5A827999
  else if t < 40 then (s.b ^^^ s.c ^^^ s.d) + 0x6ED9EBA1
  else if t < 60 then ((s.b &&& s.c) ||| (s.b &&& s.d) ||| (s.c &&& s.d)) + 0x8F1BBCDC
  else (s.b ^^^ s.c ^^^ s.d) + 0xCA62C1D6

def round (s : Digest) (p : UInt32 × Nat) : Digest :=
  ⟨CircularShift 5 s.a + mixed p.2 s + s.e + p.1, s.a, CircularShift 30 s.b, s.c, s.d⟩

/-- What a block does to `H`. -/
def compress (H : Digest) (Message_Block : Bytes) : Digest :=
  let s := (W Message_Block).zipIdx.foldl round H
  ⟨H.a + s.a, H.b + s.b, H.c + s.c, H.d + s.d, H.e + s.e⟩

def ProcessMessageBlock (s : SHA1) : SHA1 :=
  { s with H := compress s.H s.Message_Block, processed := s.processed ++ [s.Message_Block] }

/-! ## The driver -/

def SHAInit : SHA1 where
  H := ⟨0x67452301, 0xEFCDAB89, 0x98BADCFE, 0x10325476, 0xC3D2E1F0⟩
  Length_Low := 0
  Length_High := 0
  Message_Block := []
  Message_Block_Index := 0
  processed := []

def AddDataLen (s : SHA1) (nDealDataLen : Nat) : SHA1 :=
  let bits := u32 (nDealDataLen * 8)
  let low := u32 (s.Length_Low + bits)
  let high := if low < bits then u32 (s.Length_High + 1) else s.Length_High
  { s with
    Message_Block_Index := nDealDataLen
    Length_Low := low
    Length_High := u32 (high + nDealDataLen / 536870912) }

/-- `Message_Block[Message_Block_Index++] = c`. -/
def put (s : SHA1) (c : UInt8) : SHA1 :=
  { s with
    Message_Block := s.Message_Block.set s.Message_Block_Index c
    Message_Block_Index := s.Message_Block_Index + 1 }

/-- `n` zeros. -/
def zeros (s : SHA1) : Nat → SHA1
  | 0 => s
  | n + 1 => zeros (s.put 0) n

/-- Zeros while `Message_Block_Index < bound`. -/
def zerosTo (s : SHA1) (bound : Nat) : SHA1 := s.zeros (bound - s.Message_Block_Index)

/-- The last eight octets. -/
def putLength (s : SHA1) : SHA1 :=
  { s with
    Message_Block :=
      (((((((s.Message_Block.set 56 (s.Length_High / 16777216).toUInt8).set 57
        (s.Length_High / 65536).toUInt8).set 58
        (s.Length_High / 256).toUInt8).set 59
        s.Length_High.toUInt8).set 60
        (s.Length_Low / 16777216).toUInt8).set 61
        (s.Length_Low / 65536).toUInt8).set 62
        (s.Length_Low / 256).toUInt8).set 63
        s.Length_Low.toUInt8 }

def PadMessage (s : SHA1) : SHA1 :=
  if s.Message_Block_Index > 55 then
    -- behind `ProcessMessageBlock` the index is still 64
    ((((s.put 128).zerosTo 64).ProcessMessageBlock.zerosTo 56).putLength).ProcessMessageBlock
  else (((s.put 128).zerosTo 56).putLength).ProcessMessageBlock

/-- `memset`, and `memcpy` of `bytes`. -/
def fill (s : SHA1) (bytes : Bytes) : SHA1 :=
  { s with Message_Block := bytes ++ List.replicate (64 - bytes.length) 0 }

/-- A round of the loop of `SHA_GO`. -/
def blockRound (data : Bytes) (pos : Nat) (s : SHA1) : SHA1 :=
  if data.length - pos ≥ 64 then
    (((s.fill ((data.drop pos).take 64)).AddDataLen 64).ProcessMessageBlock).AddDataLen 0
  else
    let nDealDataLen := data.length - pos
    ((s.fill ((data.drop pos).take nDealDataLen)).AddDataLen nDealDataLen).PadMessage

/-- The loop of `SHA_GO`. -/
def blocksFrom (data : Bytes) (pos : Nat) (s : SHA1) : SHA1 :=
  if pos ≤ data.length then blocksFrom data (pos + 64) (blockRound data pos s) else s
termination_by data.length + 1 - pos

/-- A digit of `%x`. -/
def hexDigit (n : Nat) : UInt8 := if n < 10 then (48 + n).toUInt8 else (87 + n).toUInt8

/-- `%08x`. -/
def hexWord (w : UInt32) : Bytes :=
  (List.range 8).map fun i => hexDigit (w.toNat / 16 ^ (7 - i) % 16)

def digestText (h : Digest) : Bytes :=
  hexWord h.a ++ hexWord h.b ++ hexWord h.c ++ hexWord h.d ++ hexWord h.e

/-- The string ends at its first zero. -/
def SHA_GO (lpData_Input : Bytes) : SHA1 :=
  let data := lpData_Input.takeWhile (· ≠ 0)
  blocksFrom data 0 SHAInit

def Sha1 (str : Bytes) : Bytes := digestText (SHA_GO str).H

example : Sha1 (ascii ['a', 'b', 'c']) = ascii "a9993e364706816aba3e25717850c26c9cd0d89d".toList := by
  have hgo : SHA_GO (ascii ['a', 'b', 'c']) = blockRound (ascii ['a', 'b', 'c']) 0 SHAInit := by
    have hdata : (ascii ['a', 'b', 'c']).takeWhile (· ≠ 0) = ascii ['a', 'b', 'c'] := by decide
    rw [SHA_GO, hdata, blocksFrom, if_pos (by decide), blocksFrom, if_neg (by decide)]
  rw [Sha1, hgo]
  decide +kernel

end SHA1

end CommonCc
