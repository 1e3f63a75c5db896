import CommonCc.Base
import CommonCc.Lib.Memory

/-!
# The functions of `CBaseExternSort`

The files are read and written without errors.  `GetItem` delivers a list of ranks and items, and
the calls of `SetItem` are collected.  That the files are removed in the end is left out.
-/

namespace CommonCc

/-- What the sort rests on: the representation of a rank in memory, `std::sort` with
`SortFunction`, and what `new char[]` finds in the memory that it delivers. -/
structure SortPlatform (R : Type) [LinearOrder R] where
  bits : R → Bytes
  ofBits : Bytes → R
  sort : List (R × Bytes) → List (R × Bytes)
  raw : Nat → UInt8
  bits_length : ∀ rank, (bits rank).length = 8
  ofBits_bits : ∀ rank, ofBits (bits rank) = rank
  sort_perm : ∀ l, (sort l).Perm l
  sort_pairwise : ∀ l, (sort l).Pairwise fun s1 s2 => s2.1 ≤ s1.1

/-- The files by their names. -/
abbrev Disk := Bytes → Option Bytes

def Disk.write (disk : Disk) (name content : Bytes) : Disk :=
  fun other => if other = name then some content else disk other

structure CBaseExternSort (R : Type) where
  m_path : Bytes
  m_sort_num : Nat
  m_buffer_len : Nat
  m_sort_file : List Bytes
  m_sort_item : List (R × Bytes)

namespace CBaseExternSort

section

variable {R : Type} [LinearOrder R] (p : SortPlatform R)

def Init (tmp_path : Bytes) (sort_num : Nat) : CBaseExternSort R where
  m_path := tmp_path
  m_sort_num := sort_num
  m_buffer_len := 0
  m_sort_file := []
  m_sort_item := []

/-! ## Runs -/

/-- What `snprintf` is to print, `"%s/extern_sort_%d.dat"`. -/
def filePath (m_path : Bytes) (i : Nat) : Bytes :=
  m_path.takeWhile (· ≠ 0) ++ ascii ['/', 'e', 'x', 't', 'e', 'r', 'n', '_', 's', 'o', 'r', 't', '_'] ++
    printLong (toInt i) ++ ascii ['.', 'd', 'a', 't']

/-- What has room in `tmp_buf`. -/
def tmpBuf (m_path : Bytes) (i : Nat) : Bytes := (filePath m_path i).take 511

/-- The loop of `WriteFile`: the new `m_buffer_len`, the file and the result. -/
def writeItems : List (R × Bytes) → Nat → Bytes → Nat × Bytes × Bool
  | [], m_buffer_len, file => (m_buffer_len, file, true)
  | s :: items, m_buffer_len, file =>
      let st := u32 s.2.length
      let m_buffer_len := if m_buffer_len < st then u32 (st + 1) else m_buffer_len
      let file := file ++ p.bits s.1 ++ u32Bytes st
      -- `fwrite` of no bytes returns 0
      if st = 0 then (m_buffer_len, file, false)
      else writeItems items m_buffer_len (file ++ s.2.take st)

def WriteFile (s : CBaseExternSort R) (disk : Disk) :
    Except Fault (CBaseExternSort R × Disk × Bool) :=
  -- a `uint32_t` does not count further
  if 4294967296 ≤ s.m_sort_item.length then .error .diverges
  else
    let tmp_buf := tmpBuf s.m_path s.m_sort_file.length
    let (m_buffer_len, file, ok) := writeItems p s.m_sort_item s.m_buffer_len []
    .ok ({ s with m_buffer_len := m_buffer_len, m_sort_file := s.m_sort_file ++ [tmp_buf] },
      disk.write tmp_buf file, ok)

/-- The items so far are sorted, written and forgotten. -/
def writeRun (s : CBaseExternSort R) (disk : Disk) :
    Except Fault (CBaseExternSort R × Disk × Bool) :=
  match WriteFile p { s with m_sort_item := p.sort s.m_sort_item } disk with
  | .error e => .error e
  | .ok (s, disk, false) => .ok (s, disk, false)
  | .ok (s, disk, true) => .ok ({ s with m_sort_item := [] }, disk, true)

/-- `MemorySort` when `count` items have been taken. -/
def MemorySort (s : CBaseExternSort R) (disk : Disk) (count : Nat) :
    List (R × Bytes) → Except Fault (CBaseExternSort R × Disk × Bool)
  | [] => if s.m_sort_item.length ≠ 0 then writeRun p s disk else .ok (s, disk, true)
  | item :: items =>
      let s := { s with m_sort_item := s.m_sort_item ++ [item] }
      let count := u32 (count + 1)
      -- the remainder by 0 stops the program
      if s.m_sort_num = 0 then .error .assertion
      else if count % s.m_sort_num = 0 then
        match writeRun p s disk with
        | .error e => .error e
        | .ok (s, disk, false) => .ok (s, disk, false)
        | .ok (s, disk, true) => MemorySort s disk count items
      else MemorySort s disk count items

/-! ## Merging -/

/-- The rank and the item of the next record of a file, what is left of the file, and the buffer. -/
def ReadFile (m_buffer : Memory UInt8) :
    Option Bytes → Except Fault (Option ((R × Bytes) × Bytes × Memory UInt8))
  | none => .ok none
  | some fp =>
      if fp.length < 8 then .ok none
      else
        let rank := p.ofBits (fp.take 8)
        let fp := fp.drop 8
        if fp.length < 4 then .ok none
        else
          let len := leValue (fp.take 4)
          let fp := fp.drop 4
          if m_buffer.size < len then .error .outOfBounds
          else
            -- what is missing in the file is what the buffer had
            let m_buffer := m_buffer.write 0 (fp.take len)
            .ok (some ((rank, m_buffer.read 0 len), fp.drop len, m_buffer))

/-- `fp_list`, `vect_rank` and `vect_item` at one index. -/
structure Reader (R : Type) where
  fp : Option Bytes
  rank : R
  item : Bytes

/-- The files are opened and their first records read. -/
def openFiles [Inhabited R] (m_buffer : Memory UInt8) :
    List Bytes → Except Fault (List (Reader R) × Memory UInt8)
  | [] => .ok ([], m_buffer)
  | fp :: fps =>
      match ReadFile p m_buffer (some fp) with
      | .error e => .error e
      | .ok none =>
          match openFiles m_buffer fps with
          | .error e => .error e
          | .ok (readers, m_buffer) => .ok (⟨none, default, []⟩ :: readers, m_buffer)
      | .ok (some ((rank, item), fp, m_buffer)) =>
          match openFiles m_buffer fps with
          | .error e => .error e
          | .ok (readers, m_buffer) => .ok (⟨some fp, rank, item⟩ :: readers, m_buffer)

/-- The search for a greater rank from index `i` on. -/
def findMax : List (Reader R) → Nat → R × Nat → R × Nat
  | [], _, best => best
  | reader :: readers, i, best =>
      if reader.fp.isSome = true ∧ best.1 < reader.rank then
        findMax readers (i + 1) (reader.rank, i)
      else findMax readers (i + 1) best

/-- The first file that is still open, from index `j` on. -/
def firstOpen : List (Reader R) → Nat → Option (R × Nat)
  | [], _ => none
  | reader :: readers, j =>
      if reader.fp.isSome = true then some (reader.rank, j) else firstOpen readers (j + 1)

/-- The loop of `MergeSort`, with the calls of `SetItem` so far. -/
def mergeLoop : Nat → List (Reader R) → Memory UInt8 → R × Nat → List (R × Bytes) →
    Except Fault (List (R × Bytes))
  | 0, _, _, _, _ => .error .diverges
  | fuel + 1, readers, m_buffer, best, set =>
      let best := findMax readers 0 best
      match readers[best.2]? with
      | none => .error .outOfBounds
      | some reader =>
          let set := set ++ [(reader.rank, reader.item)]
          match ReadFile p m_buffer reader.fp with
          | .error e => .error e
          | .ok none =>
              -- `fclose` of no file
              if reader.fp = none then .error .outOfBounds
              else
                let readers := readers.set best.2 { reader with fp := none }
                match firstOpen readers 0 with
                | none => .ok set
                | some best => mergeLoop fuel readers m_buffer best set
          | .ok (some ((rank, item), fp, m_buffer)) =>
              mergeLoop fuel (readers.set best.2 ⟨some fp, rank, item⟩) m_buffer (rank, best.2) set

def MergeSort [Inhabited R] (s : CBaseExternSort R) (disk : Disk) :
    Except Fault (List (R × Bytes)) :=
  -- a `uint32_t` does not count further
  if 4294967296 ≤ s.m_sort_file.length then .error .diverges
  else
    match s.m_sort_file.mapM disk with
    | none => .error .assertion
    | some fps =>
        match openFiles p ⟨s.m_buffer_len, p.raw⟩ fps with
        | .error e => .error e
        | .ok (readers, m_buffer) =>
            match readers with
            | [] => .error .outOfBounds
            | reader :: _ =>
                mergeLoop p ((fps.map List.length).sum + fps.length + 1) readers m_buffer
                  (reader.rank, 0) []

end

end CBaseExternSort

/-- The calls of `SetItem`, and the result. -/
def CBaseExternSort.Sort {R : Type} [LinearOrder R] [Inhabited R] (p : SortPlatform R)
    (s : CBaseExternSort R) (disk : Disk) (items : List (R × Bytes)) :
    Except Fault (List (R × Bytes) × Bool) :=
  match MemorySort p s disk 0 items with
  | .error e => .error e
  | .ok (_, _, false) => .ok ([], false)
  | .ok (s, disk, true) =>
      match MergeSort p s disk with
      | .error e => .error e
      | .ok set => .ok (set, true)

end CommonCc
