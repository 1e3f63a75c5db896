import CommonCc.Base
import CommonCc.Lib.Linked
import CommonCc.Lib.Memory

/-!
# The shared-memory cache

`CShmCache` keeps values in fixed-size blocks.  Every block is a node of one
circular LRU list, and every block in use is also a node of the sorted chain of
its hash bucket.  A null index, `-1` in the source, is `none`.

A loop gets one step for every block, and one more to leave; a loop that uses
more visits a block twice and is reported as `Fault.diverges`.  The locks and the
clock are outside: each call takes the reading it would get from `time`.
-/

namespace CommonCc

def HASH_MASK : Nat := 65536

structure SBlockHead where
  m_key : Nat
  m_idx : Nat
  m_len : Nat
  m_next : Option Nat
  m_lru_pre : Nat
  m_lru_next : Nat
  m_uptime : Int

structure SHashHead where
  m_len : Nat
  m_head : Option Nat

structure CShmCache where
  m_block_num : Nat
  m_block_size : Nat
  m_timeout : Nat
  m_total_hit : Nat
  m_total_req : Nat
  m_data_buffer : Memory UInt8
  m_block : Nat → SBlockHead
  m_hash : Nat → SHashHead
  m_lru_head : Nat
  m_lru_tail : Nat

def ERR_OK : Int := 0
def ERR_KEY_NO_EXIST : Int := -1
def ERR_KEY_TIMEOUT : Int := -2
def ERR_KEY_ZERO : Int := -3

namespace CShmCache

/-- A new object and a segment of zeros. -/
def fresh : CShmCache :=
  ⟨0, 0, 60, 0, 0, ⟨0, fun _ => 0⟩, fun _ => ⟨0, 0, 0, none, 0, 0, 0⟩, fun _ => ⟨0, none⟩, 0, 0⟩

/-- The segment fits in the 32 bits of its size. -/
def LayoutFits (block_num block_size : Nat) : Prop :=
  block_num * block_size + block_num * 40 + HASH_MASK * 8 + 12 < 4294967296

/-- `Init` on a segment that was not initialised yet; `s` is what the object and
the segment hold before. -/
def Init (s : CShmCache) (block_num block_size timeout : Nat) : CShmCache :=
  { m_block_num := block_num
    m_block_size := block_size
    m_timeout := timeout
    m_total_hit := s.m_total_hit
    m_total_req := s.m_total_req
    m_data_buffer := { s.m_data_buffer with size := block_num * block_size }
    m_block := fun idx =>
      if idx < block_num then
        { m_key := 0
          m_idx := idx
          m_len := 0
          m_next := none
          m_lru_pre := if idx = 0 then block_num - 1 else idx - 1
          m_lru_next := if idx = block_num - 1 then 0 else idx + 1
          m_uptime := (s.m_block idx).m_uptime }
      else s.m_block idx
    m_hash := fun idx => if idx < HASH_MASK then ⟨0, none⟩ else s.m_hash idx
    m_lru_head := 0
    m_lru_tail := block_num - 1 }

/-! ## Fields in the segment -/

def setBlock (s : CShmCache) (idx : Nat) (block : SBlockHead) : CShmCache :=
  { s with m_block := Function.update s.m_block idx block }

def setHash (s : CShmCache) (hash_key : Nat) (head : SHashHead) : CShmCache :=
  { s with m_hash := Function.update s.m_hash hash_key head }

def setLruPre (s : CShmCache) (idx v : Nat) : CShmCache :=
  s.setBlock idx { s.m_block idx with m_lru_pre := v }

def setLruNext (s : CShmCache) (idx v : Nat) : CShmCache :=
  s.setBlock idx { s.m_block idx with m_lru_next := v }

/-- `pre != -1 ? m_block[pre].m_next = v : m_hash[hash_key].m_head = v`. -/
def setLink (s : CShmCache) (hash_key : Nat) (pre v : Option Nat) : CShmCache :=
  match pre with
  | some pre => s.setBlock pre { s.m_block pre with m_next := v }
  | none => s.setHash hash_key { s.m_hash hash_key with m_head := v }

/-! ## The LRU list -/

/-- The six assignments that `MoveLRUTail` and `MoveLRUHead` share. -/
def relinkLRU (s : CShmCache) (idx : Nat) : CShmCache :=
  let s := s.setLruNext (s.m_block idx).m_lru_pre (s.m_block idx).m_lru_next
  let s := s.setLruPre (s.m_block idx).m_lru_next (s.m_block idx).m_lru_pre
  let s := s.setLruPre idx s.m_lru_tail
  let s := s.setLruNext idx s.m_lru_head
  let s := s.setLruNext s.m_lru_tail idx
  s.setLruPre s.m_lru_head idx

def MoveLRUTail (s : CShmCache) (idx : Nat) : CShmCache :=
  if s.m_lru_tail = idx then s
  else if s.m_lru_head = idx then
    { s with m_lru_tail := s.m_lru_head, m_lru_head := (s.m_block idx).m_lru_next }
  else { s.relinkLRU idx with m_lru_tail := idx }

def MoveLRUHead (s : CShmCache) (idx : Nat) : CShmCache :=
  if s.m_lru_head = idx then s
  else if s.m_lru_tail = idx then
    { s with m_lru_head := s.m_lru_tail, m_lru_tail := (s.m_block idx).m_lru_pre }
  else { s.relinkLRU idx with m_lru_head := idx }

/-! ## The hash chains -/

/-- The loop of `InsertHash`: the chain position after the keys up to `key`. -/
def InsertHash.position (s : CShmCache) (key : Nat) :
    Nat → Option Nat → Option Nat → Except Fault (Option Nat × Option Nat)
  | _, pre, none => .ok (pre, none)
  | 0, _, some _ => .error .diverges
  | fuel + 1, pre, some cur =>
      if key ≥ (s.m_block cur).m_key then
        InsertHash.position s key fuel (some cur) (s.m_block cur).m_next
      else .ok (pre, some cur)

def InsertHash (s : CShmCache) (idx : Nat) : Except Fault CShmCache := do
  let key := (s.m_block idx).m_key
  let hash_key := key % HASH_MASK
  let head := s.m_hash hash_key
  let s := s.setHash hash_key { head with m_len := u32 (head.m_len + 1) }
  let (pre, cur) ← InsertHash.position s key (s.m_block_num + 1) none head.m_head
  let s := s.setBlock idx
    { s.m_block idx with m_next := cur.map fun cur => (s.m_block cur).m_idx }
  if pre = some idx then .error .assertion
  else .ok ((s.setLink hash_key pre (some idx)).MoveLRUTail idx)

/-- The body of the branch of `DeleteHash` that removes the block `cur`. -/
def DeleteHash.remove (s : CShmCache) (hash_key : Nat) (pre : Option Nat) (cur : Nat) :
    CShmCache :=
  let s := s.setLink hash_key pre (s.m_block cur).m_next
  let s := s.setBlock cur { s.m_block cur with m_key := 0, m_next := none, m_len := 0 }
  let head := s.m_hash hash_key
  let s := s.setHash hash_key { head with m_len := u32Sub head.m_len 1 }
  s.MoveLRUHead cur

def DeleteHash.loop (key : Nat) :
    Nat → Option Nat → Option Nat → CShmCache → Except Fault CShmCache
  | _, _, none, s => .ok s
  | 0, _, some _, _ => .error .diverges
  | fuel + 1, pre, some cur, s =>
      if (s.m_block cur).m_key = key then
        let tmp := (s.m_block cur).m_next
        DeleteHash.loop key fuel pre tmp (DeleteHash.remove s (key % HASH_MASK) pre cur)
      else if key > (s.m_block cur).m_key then
        DeleteHash.loop key fuel (some cur) (s.m_block cur).m_next s
      else .ok s

def DeleteHash (s : CShmCache) (key : Nat) : Except Fault CShmCache :=
  DeleteHash.loop key (s.m_block_num + 1) none (s.m_hash (key % HASH_MASK)).m_head s

/-! ## The calls -/

/-- The inner loop of `Set`: delete the key at the LRU head until that block is free. -/
def Set.evict : Nat → CShmCache → Except Fault CShmCache
  | fuel, s =>
      let b := s.m_block s.m_lru_head
      if b.m_key = 0 then .ok s
      else
        match fuel with
        | 0 => .error .diverges
        | fuel + 1 => do
            let s ← s.DeleteHash b.m_key
            Set.evict fuel s

/-- One turn of the outer loop of `Set`: the next `n` bytes go to the LRU head. -/
def Set.put (s : CShmCache) (key : Nat) (now : Int) (chunk : Bytes) :
    Except Fault CShmCache := do
  let s ← Set.evict (s.m_block_num + 1) s
  let block := s.m_block s.m_lru_head
  if block.m_key ≠ 0 then .error .assertion
  else
    match s.m_data_buffer.store (u32 (block.m_idx * s.m_block_size)) chunk with
    | none => .error .outOfBounds
    | some m =>
        let s := { s with m_data_buffer := m }
        let s := s.setBlock s.m_lru_head
          { block with m_key := key, m_uptime := now, m_len := chunk.length }
        s.InsertHash block.m_idx

/-- The outer loop of `Set`; every turn stores at least one byte. -/
def Set.loop (key : Nat) (now : Int) (data_buf : Bytes) :
    Nat → (copyed data_len : Nat) → CShmCache → Except Fault CShmCache
  | _, _, 0, s => .ok s
  | 0, _, _ + 1, _ => .error .diverges
  | fuel + 1, copyed, data_len, s => do
      let n := if data_len ≤ s.m_block_size then data_len else s.m_block_size
      let s ← Set.put s key now ((data_buf.drop copyed).take n)
      Set.loop key now data_buf fuel (copyed + n) (data_len - n) s

def Set (s : CShmCache) (now : Int) (key : Nat) (data_buf : Bytes) :
    Except Fault (Int × CShmCache) :=
  if key = 0 then .ok (ERR_KEY_ZERO, s)
  else do
    let s ← s.DeleteHash key
    let s ← Set.loop key now data_buf data_buf.length 0 data_buf.length s
    return (ERR_OK, s)

/-- The loop of `Get`, with the return code and the bytes copied so far. -/
def Get.loop (key : Nat) (now : Int) :
    Nat → Option Nat → Int → Bytes → CShmCache → Except Fault ((Int × Bytes) × CShmCache)
  | _, none, iRet, out, s => .ok ((iRet, out), s)
  | 0, some _, _, _, _ => .error .diverges
  | fuel + 1, some cur, iRet, out, s =>
      let block := s.m_block cur
      if block.m_key = key then
        if now - block.m_uptime > s.m_timeout then do
          let s ← s.DeleteHash key
          return ((ERR_KEY_TIMEOUT, out), s)
        else
          match s.m_data_buffer.load (u32 (block.m_idx * s.m_block_size)) block.m_len with
          | none => .error .outOfBounds
          | some bytes =>
              let s := s.MoveLRUTail block.m_idx
              Get.loop key now fuel (s.m_block cur).m_next ERR_OK (out ++ bytes) s
      else if block.m_key > key then .ok ((iRet, out), s)
      else Get.loop key now fuel block.m_next iRet out s

/-- The return code of `Get` and the `*data_len` bytes it leaves in `data_buf`. -/
def Get (s : CShmCache) (now : Int) (key : Nat) : Except Fault ((Int × Bytes) × CShmCache) := do
  let s := { s with m_total_req := u32 (s.m_total_req + 1) }
  let cur := (s.m_hash (key % HASH_MASK)).m_head
  let (answer, s) ← Get.loop key now (s.m_block_num + 1) cur ERR_KEY_NO_EXIST [] s
  let hit := if answer.1 = ERR_OK then u32 (s.m_total_hit + 1) else s.m_total_hit
  return (answer, { s with m_total_hit := hit })

def Del (s : CShmCache) (key : Nat) : Except Fault (Int × CShmCache) := do
  let s ← s.DeleteHash key
  return (ERR_OK, s)

/-- The walk of `Check` along one bucket. -/
def Check.walk (now : Int) : Nat → Option Nat → CShmCache → Except Fault CShmCache
  | _, none, s => .ok s
  | 0, some _, _ => .error .diverges
  | fuel + 1, some cur, s =>
      let block := s.m_block cur
      if now - block.m_uptime > s.m_timeout then do
        let s ← s.DeleteHash block.m_key
        Check.walk now fuel block.m_next s
      else Check.walk now fuel block.m_next s

def Check (s : CShmCache) (now : Int) : Except Fault CShmCache :=
  (List.range HASH_MASK).foldlM
    (fun s idx => Check.walk now (s.m_block_num + 2) (s.m_hash idx).m_head s) s

end CShmCache

/-! ## Calls and answers -/

inductive CacheCall where
  | set (now : Int) (key : Nat) (data : Bytes)
  | get (now : Int) (key : Nat)
  | del (key : Nat)
  | check (now : Int)
deriving DecidableEq

/-- The key a call names. -/
def CacheCall.key : CacheCall → Option Nat
  | .set _ key _ => some key
  | .get _ key => some key
  | .del key => some key
  | .check _ => none

inductive CacheAnswer where
  | ret (code : Int)
  | got (code : Int) (data : Bytes)
  | done
deriving DecidableEq

def CShmCache.call (s : CShmCache) : CacheCall → Except Fault (CacheAnswer × CShmCache)
  | .set now key data => do
      let (code, s) ← s.Set now key data
      return (.ret code, s)
  | .get now key => do
      let ((code, data), s) ← s.Get now key
      return (.got code data, s)
  | .del key => do
      let (code, s) ← s.Del key
      return (.ret code, s)
  | .check now => do
      let s ← s.Check now
      return (.done, s)

end CommonCc
