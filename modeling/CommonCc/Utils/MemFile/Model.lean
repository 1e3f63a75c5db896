import CommonCc.Base
import CommonCc.Lib.Memory

/-!
# The functions of `MemFile`

The blocks are listed from `m_base` along `next`, and a block pointer is a position in the list.
What is in the memory of a new block is given: `raw k` for the block at position `k`.
-/

namespace CommonCc

def BLOCKSIZE : Nat := 32768

theorem blocksize_pos : 0 < BLOCKSIZE := by decide

structure MemFile where
  blocks : List (Memory UInt8)
  m_current_read : Nat
  m_current_write : Nat
  m_current_write_nr : Int
  m_read_ptr : Nat
  m_write_ptr : Nat
  m_b_read_caused_eof : Bool

namespace MemFile

def newBlock (raw : Nat → Nat → UInt8) (k : Nat) : Memory UInt8 where
  size := BLOCKSIZE
  cell := raw k

def new (raw : Nat → Nat → UInt8) : MemFile where
  blocks := [newBlock raw 0]
  m_current_read := 0
  m_current_write := 0
  m_current_write_nr := 0
  m_read_ptr := 0
  m_write_ptr := 0
  m_b_read_caused_eof := false

/-! ## Reading -/

/-- `memcpy` out of the block that is read. -/
def copyOut (f : MemFile) (off n : Nat) : Except Fault (Bytes × MemFile) :=
  match f.blocks[f.m_current_read]? with
  | none => .error .outOfBounds
  | some block =>
      match block.load off n with
      | none => .error .outOfBounds
      | some data => .ok (data, { f with m_read_ptr := f.m_read_ptr + n })

/-- `m_current_read -> next` is there. -/
def HasNext (f : MemFile) : Prop := f.m_current_read + 1 < f.blocks.length

instance (f : MemFile) : Decidable f.HasNext := Nat.decLt _ _

def nextRead (f : MemFile) : MemFile := { f with m_current_read := f.m_current_read + 1 }

/-- The blocks behind the first.  What is in `ptr` comes with the value that is returned. -/
def freadBlocks (sz : Nat) (f : MemFile) (ptr : Bytes) (sz1 sz2 : Nat) :
    Except Fault ((Bytes × Nat) × MemFile) :=
  if _h : BLOCKSIZE < sz2 then
    if f.HasNext then
      match f.nextRead.copyOut 0 BLOCKSIZE with
      | .error e => .error e
      | .ok (data, f) => freadBlocks sz f (ptr ++ data) (sz1 + BLOCKSIZE) (sz2 - BLOCKSIZE)
    else .ok ((ptr, sz1), f)
  else if f.HasNext then
    match f.nextRead.copyOut 0 sz2 with
    | .error e => .error e
    | .ok (data, f) => .ok ((ptr ++ data, sz), f)
  else .ok ((ptr, sz1), f)
termination_by sz2
decreasing_by
  have hpos := blocksize_pos
  omega

/-- `Fread` once it knows how many bytes there are to read. -/
def readBytes (f : MemFile) (sz : Nat) : Except Fault ((Bytes × Nat) × MemFile) :=
  let p := f.m_read_ptr % BLOCKSIZE
  if sz = 0 then .ok (([], 0), f)
  else if p + sz < BLOCKSIZE then
    match f.copyOut p sz with
    | .error e => .error e
    | .ok (data, f) => .ok ((data, sz), f)
  else
    let sz1 := BLOCKSIZE - p
    match f.copyOut p sz1 with
    | .error e => .error e
    | .ok (data, f) => freadBlocks sz f data sz1 (sz - sz1)

def Fread (f : MemFile) (size nmemb : Nat) : Except Fault ((Bytes × Nat) × MemFile) :=
  let sz := u64 (size * nmemb)
  let available := u64Sub f.m_write_ptr f.m_read_ptr
  -- read beyond eof
  if available < sz then { f with m_b_read_caused_eof := true }.readBytes available
  else f.readBytes sz

/-! ## Writing -/

/-- `memcpy` into the block that is written. -/
def copyIn (f : MemFile) (off : Nat) (src : Bytes) : Except Fault MemFile :=
  match f.blocks[f.m_current_write]? with
  | none => .error .outOfBounds
  | some block =>
      match block.store off src with
      | none => .error .outOfBounds
      | some block => .ok { f with
          blocks := f.blocks.set f.m_current_write block
          m_write_ptr := f.m_write_ptr + src.length }

/-- A new block behind the one that is written. -/
def addBlock (raw : Nat → Nat → UInt8) (f : MemFile) : MemFile :=
  { f with
    blocks := f.blocks.take (f.m_current_write + 1) ++ [newBlock raw (f.m_current_write + 1)]
    m_current_write := f.m_current_write + 1
    m_current_write_nr := f.m_current_write_nr + 1 }

def nextWrite (raw : Nat → Nat → UInt8) (f : MemFile) : MemFile :=
  if f.m_current_write + 1 < f.blocks.length then
    { f with
      m_current_write := f.m_current_write + 1
      m_current_write_nr := f.m_current_write_nr + 1 }
  else addBlock raw f

/-- The blocks behind the first, for what is left of the source. -/
def fwriteBlocks (raw : Nat → Nat → UInt8) (f : MemFile) (src : Bytes) : Except Fault MemFile :=
  if _h : BLOCKSIZE < src.length then
    match (f.nextWrite raw).copyIn 0 (src.take BLOCKSIZE) with
    | .error e => .error e
    | .ok f => fwriteBlocks raw f (src.drop BLOCKSIZE)
  else (f.nextWrite raw).copyIn 0 src
termination_by src.length
decreasing_by
  have hpos := blocksize_pos
  rw [List.length_drop]
  omega

def Fwrite (raw : Nat → Nat → UInt8) (f : MemFile) (ptr : Bytes) (size nmemb : Nat) :
    Except Fault (Nat × MemFile) :=
  let p := f.m_write_ptr % BLOCKSIZE
  let nr := (toInt f.m_write_ptr).tdiv BLOCKSIZE
  let sz := u64 (size * nmemb)
  if ptr.length < sz then .error .outOfBounds
  else
    let src := ptr.take sz
    let f := if f.m_current_write_nr < nr then f.addBlock raw else f
    if p + sz ≤ BLOCKSIZE then
      match f.copyIn p src with
      | .error e => .error e
      | .ok f => .ok (sz, f)
    else
      match f.copyIn p (src.take (BLOCKSIZE - p)) with
      | .error e => .error e
      | .ok f =>
          match fwriteBlocks raw f (src.drop (BLOCKSIZE - p)) with
          | .error e => .error e
          | .ok f => .ok (sz, f)

end MemFile

end CommonCc
