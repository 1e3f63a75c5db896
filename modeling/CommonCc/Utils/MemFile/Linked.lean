import CommonCc.Utils.MemFile.Model
import Mathlib.Logic.Function.Basic

/-!
# `MemFile` with its pointers

The blocks at their addresses.  `m_base` is at 0, and a reader may stand on a block that no link
leads to any more.  `raw a` is what is in the memory of the block that is made at `a`.
-/

namespace CommonCc

/-- `block_t`. -/
structure FileBlock where
  next : Option Nat
  data : Memory UInt8

/-- The next block is made at the address `fresh`. -/
structure LinkedFile where
  heap : Nat → FileBlock
  fresh : Nat
  m_current_read : Option Nat
  m_current_write : Nat
  m_current_write_nr : Int
  m_read_ptr : Nat
  m_write_ptr : Nat
  m_b_read_caused_eof : Bool

namespace LinkedFile

def newBlock (raw : Nat → Nat → UInt8) (a : Nat) : FileBlock := ⟨none, MemFile.newBlock raw a⟩

/-- `MemFile()`. -/
def new (raw : Nat → Nat → UInt8) : LinkedFile where
  heap := newBlock raw
  fresh := 1
  m_current_read := some 0
  m_current_write := 0
  m_current_write_nr := 0
  m_read_ptr := 0
  m_write_ptr := 0
  m_b_read_caused_eof := false

def next (f : LinkedFile) (a : Nat) : Option Nat := (f.heap a).next

def data (f : LinkedFile) (a : Nat) : Memory UInt8 := (f.heap a).data

/-! ## Positions -/

def ResetRead (f : LinkedFile) : LinkedFile := { f with m_read_ptr := 0, m_current_read := some 0 }

def ResetWrite (f : LinkedFile) : LinkedFile :=
  { f with m_write_ptr := 0, m_current_write := 0, m_current_write_nr := 0 }

/-! ## Reading -/

/-- `memcpy` out of the block that is read. -/
def copyOut (f : LinkedFile) (off n : Nat) : Except Fault (Bytes × LinkedFile) :=
  match f.m_current_read with
  | none => .error .outOfBounds
  | some a =>
      match (f.data a).load off n with
      | none => .error .outOfBounds
      | some data => .ok (data, { f with m_read_ptr := u64 (f.m_read_ptr + n) })

/-- `m_current_read -> next`. -/
def nextRead (f : LinkedFile) : Option Nat := f.m_current_read.bind f.next

/-- The blocks behind the first.  What is in `ptr` comes with the value that is returned. -/
def freadBlocks (sz : Nat) (f : LinkedFile) (ptr : Bytes) (sz1 sz2 : Nat) :
    Except Fault ((Bytes × Nat) × LinkedFile) :=
  if _h : BLOCKSIZE < sz2 then
    if f.nextRead.isSome then
      match { f with m_current_read := f.nextRead }.copyOut 0 BLOCKSIZE with
      | .error e => .error e
      | .ok (data, f) => freadBlocks sz f (ptr ++ data) (sz1 + BLOCKSIZE) (sz2 - BLOCKSIZE)
    else .ok ((ptr, sz1), f)
  else if f.nextRead.isSome then
    match { f with m_current_read := f.nextRead }.copyOut 0 sz2 with
    | .error e => .error e
    | .ok (data, f) => .ok ((ptr ++ data, sz), f)
  else .ok ((ptr, sz1), f)
termination_by sz2
decreasing_by
  have hpos := blocksize_pos
  omega

/-- `Fread` once it knows how many bytes there are to read. -/
def readBytes (f : LinkedFile) (sz : Nat) : Except Fault ((Bytes × Nat) × LinkedFile) :=
  let p := f.m_read_ptr % BLOCKSIZE
  if sz = 0 then .ok (([], 0), f)
  else if u64 (p + sz) < BLOCKSIZE then
    match f.copyOut p sz with
    | .error e => .error e
    | .ok (data, f) => .ok ((data, sz), f)
  else
    let sz1 := BLOCKSIZE - p
    match f.copyOut p sz1 with
    | .error e => .error e
    | .ok (data, f) => freadBlocks sz f data sz1 (sz - sz1)

def Fread (f : LinkedFile) (size nmemb : Nat) : Except Fault ((Bytes × Nat) × LinkedFile) :=
  let sz := u64 (size * nmemb)
  let available := u64Sub f.m_write_ptr f.m_read_ptr
  -- read beyond eof
  if available < sz then { f with m_b_read_caused_eof := true }.readBytes available
  else f.readBytes sz

/-- The loop of `Fgets`, with the read of one character and what is in `s` so far. -/
def fgetsLoop (readChar : LinkedFile → Except Fault ((Bytes × Nat) × LinkedFile)) (size : Int) :
    Nat → LinkedFile → Bytes → Except Fault (Bytes × LinkedFile)
  | 0, _, _ => .error .diverges
  | fuel + 1, f, s =>
      if s.length < size - 1 ∧ f.m_b_read_caused_eof = false then
        match readChar f with
        | .error e => .error e
        | .ok ((c, sz), f) =>
            if sz = 0 then fgetsLoop readChar size fuel f s
            else if c = [10] then .ok (s, f)
            else fgetsLoop readChar size fuel f (s ++ c)
      else .ok (s, f)

/-- What is in `s` up to the NUL that is put behind it.  A read of nothing is the last one. -/
def Fgets (f : LinkedFile) (size : Int) : Except Fault (Bytes × LinkedFile) :=
  fgetsLoop (fun f => f.Fread 1 1) size (size.toNat + 1) f []

/-! ## Writing -/

/-- `memcpy` into the block that is written. -/
def copyIn (f : LinkedFile) (off : Nat) (src : Bytes) : Except Fault LinkedFile :=
  match (f.data f.m_current_write).store off src with
  | none => .error .outOfBounds
  | some data => .ok { f with
      heap := Function.update f.heap f.m_current_write { f.heap f.m_current_write with data := data }
      m_write_ptr := u64 (f.m_write_ptr + src.length) }

/-- A new block behind the one that is written. -/
def addBlock (raw : Nat → Nat → UInt8) (f : LinkedFile) : LinkedFile :=
  let heap := Function.update f.heap f.fresh (newBlock raw f.fresh)
  { f with
    heap := Function.update heap f.m_current_write
      { heap f.m_current_write with next := some f.fresh }
    fresh := f.fresh + 1
    m_current_write := f.fresh
    m_current_write_nr := f.m_current_write_nr + 1 }

def nextWrite (raw : Nat → Nat → UInt8) (f : LinkedFile) : LinkedFile :=
  match f.next f.m_current_write with
  | some a => { f with m_current_write := a, m_current_write_nr := f.m_current_write_nr + 1 }
  | none => addBlock raw f

/-- The blocks behind the first, for what is left of the source. -/
def fwriteBlocks (raw : Nat → Nat → UInt8) (f : LinkedFile) (src : Bytes) : Except Fault LinkedFile :=
  if _h : BLOCKSIZE < src.length then
    match (f.nextWrite raw).copyIn 0 (src.take BLOCKSIZE) with
    | .error e => .error e
    | .ok f => fwriteBlocks raw f (src.drop BLOCKSIZE)
  else (f.nextWrite raw).copyIn 0 src
termination_by src.length
decreasing_by
  have hpos := blocksize_pos
  rw [List.length_drop]
  omega

/-- `nr`, the number of the block for the next byte. -/
def writeNr (f : LinkedFile) : Int := (toInt f.m_write_ptr).tdiv BLOCKSIZE

def Fwrite (raw : Nat → Nat → UInt8) (f : LinkedFile) (ptr : Bytes) (size nmemb : Nat) :
    Except Fault (Nat × LinkedFile) :=
  let p := f.m_write_ptr % BLOCKSIZE
  let sz := u64 (size * nmemb)
  if ptr.length < sz then .error .outOfBounds
  else
    let src := ptr.take sz
    let f := if f.m_current_write_nr < f.writeNr then f.addBlock raw else f
    if u64 (p + sz) ≤ BLOCKSIZE then
      match f.copyIn p src with
      | .error e => .error e
      | .ok f => .ok (sz, f)
    else
      match f.copyIn p (src.take (BLOCKSIZE - p)) with
      | .error e => .error e
      | .ok f =>
          match fwriteBlocks raw f (src.drop (BLOCKSIZE - p)) with
          | .error e => .error e
          | .ok f => .ok (sz, f)

/-! ## Files -/

/-- The loop of `Load`.  `fread` delivers full blocks up to the end of the file. -/
def loadBlocks (raw : Nat → Nat → UInt8) (f : LinkedFile) (fil : Bytes) : Except Fault LinkedFile :=
  if _h : fil = [] then .ok f
  else
    match f.Fwrite raw (fil.take BLOCKSIZE) 1 (fil.take BLOCKSIZE).length with
    | .error e => .error e
    | .ok (_, f) => loadBlocks raw f (fil.drop BLOCKSIZE)
termination_by fil.length
decreasing_by
  have hpos := blocksize_pos
  have hlen := List.length_pos_of_ne_nil _h
  rw [List.length_drop]
  omega

/-- There may be no file at the path. -/
def Load (raw : Nat → Nat → UInt8) (f : LinkedFile) : Option Bytes → Except Fault (Bool × LinkedFile)
  | none => .ok (false, f.ResetWrite)
  | some fil =>
      match loadBlocks raw { f.ResetWrite with m_current_read := some 0, m_current_write := 0 } fil with
      | .error e => .error e
      | .ok f => .ok (true, f)

/-- `MemFile(path)`.  `Load` begins with `ResetWrite`, but sets `m_current_read` for a file only. -/
def fromPath (raw : Nat → Nat → UInt8) (fil : Option Bytes) : Except Fault (Bool × LinkedFile) :=
  { new raw with m_current_read := none }.Load raw fil

/-- The loop of `Save`, with the read of a block and what is in the file so far. -/
def saveLoop (readBlock : LinkedFile → Except Fault ((Bytes × Nat) × LinkedFile)) :
    Nat → LinkedFile → Bytes → Except Fault (Bytes × LinkedFile)
  | 0, _, _ => .error .diverges
  | fuel + 1, f, fil =>
      match readBlock f with
      | .error e => .error e
      | .ok ((slask, n), f) =>
          if n = 0 then .ok (fil, f) else saveLoop readBlock fuel f (fil ++ slask.take n)

/-- The file that is written, unless it cannot be opened.  Every read but the last moves the
reader. -/
def Save (f : LinkedFile) (opened : Bool) : Except Fault (Option Bytes × LinkedFile) :=
  if opened then
    match saveLoop (fun f => f.Fread 1 BLOCKSIZE) (f.m_write_ptr + 1) f.ResetRead [] with
    | .error e => .error e
    | .ok (fil, f) => .ok (some fil, f)
  else .ok (none, f)

/-! ## Calls -/

inductive FileCall where
  | Fread (size nmemb : Nat)
  | Fwrite (ptr : Bytes) (size nmemb : Nat)
  | Fgets (size : Int)
  | ResetRead
  | ResetWrite
  | Load (fil : Option Bytes)
  | Save (opened : Bool)

/-- A file and what has been written to it since it was emptied. -/
structure Contents where
  file : LinkedFile
  content : Bytes

def Contents.step (raw : Nat → Nat → UInt8) (s : Contents) : FileCall → Except Fault Contents
  | .Fread size nmemb => (s.file.Fread size nmemb).map fun r => ⟨r.2, s.content⟩
  | .Fwrite ptr size nmemb =>
      (s.file.Fwrite raw ptr size nmemb).map fun r => ⟨r.2, s.content ++ ptr.take r.1⟩
  | .Fgets size => (s.file.Fgets size).map fun r => ⟨r.2, s.content⟩
  | .ResetRead => .ok ⟨s.file.ResetRead, s.content⟩
  | .ResetWrite => .ok ⟨s.file.ResetWrite, []⟩
  | .Load fil => (s.file.Load raw fil).map fun r => ⟨r.2, fil.getD []⟩
  | .Save opened => (s.file.Save opened).map fun r => ⟨r.2, s.content⟩

/-- A call that returns. -/
def Contents.next (raw : Nat → Nat → UInt8) (s : Contents) (call : FileCall) : Option Contents :=
  (s.step raw call).toOption

/-- After one of the two constructors. -/
inductive Contents.Made (raw : Nat → Nat → UInt8) : Contents → Prop
  | new : Made raw ⟨LinkedFile.new raw, []⟩
  | fromPath {fil : Option Bytes} {ok : Bool} {f : LinkedFile}
      (h : LinkedFile.fromPath raw fil = .ok (ok, f)) : Made raw ⟨f, fil.getD []⟩

end LinkedFile

end CommonCc
