import CommonCc.Utils.ShmCache.Delete
import Mathlib.Tactic.Set

/-!
# Filling a block

`Set` writes one piece of the value into the free block at the LRU head, and
`InsertHash` puts that block behind the blocks of its key.
-/

namespace CommonCc

namespace CShmCache

/-- The loop of `InsertHash` stops behind the keys that are not above its own. -/
theorem InsertHash.position_eq {s : CShmCache} {k fuel : Nat} {head : Option Nat}
    {ps as bs : List Nat} (h : Linked s.hashNext head (ps ++ as ++ bs))
    (has : ∀ a ∈ as, s.key a ≤ k) (hbs : ∀ b ∈ bs, k < s.key b) (hfuel : as.length < fuel) :
    InsertHash.position s k fuel ps.getLast? (as ++ bs).head? =
      .ok ((ps ++ as).getLast?, bs.head?) := by
  induction as generalizing ps fuel with
  | nil =>
      cases bs with
      | nil => simp [InsertHash.position]
      | cons b bs =>
          obtain ⟨fuel, rfl⟩ := Nat.exists_eq_succ_of_ne_zero (Nat.ne_of_gt hfuel)
          have hgt : k < (s.m_block b).m_key := hbs b List.mem_cons_self
          simp [InsertHash.position, Nat.not_le.mpr hgt]
  | cons a as ih =>
      obtain ⟨fuel, rfl⟩ := Nat.exists_eq_succ_of_ne_zero (Nat.ne_zero_of_lt hfuel)
      obtain ⟨hle, has⟩ := List.forall_mem_cons.mp has
      have hkey : (s.m_block a).m_key ≤ k := hle
      have hnext : (s.m_block a).m_next = (as ++ bs).head? := by
        rw [List.append_assoc, List.cons_append] at h
        exact h.next_eq
      have hrest : ps ++ a :: as = ps ++ [a] ++ as := List.append_cons ps a as
      rw [hrest] at h ⊢
      rw [← ih h has (by simpa using hfuel), List.getLast?_concat, List.cons_append,
        List.head?_cons, InsertHash.position]
      simp only [ge_iff_le, hkey, if_true, hnext]

/-- `s'` is `s` after `chunk` was stored for the key `k` in the block `d`, up to the
links. -/
structure Filled (s s' : CShmCache) (d k : Nat) (now : Int) (chunk : Bytes) : Prop where
  rest : s' = { s with
    m_data_buffer := s.m_data_buffer.write (d * s.m_block_size) chunk
    m_block := s'.m_block, m_hash := s'.m_hash,
    m_lru_head := s'.m_lru_head, m_lru_tail := s'.m_lru_tail }
  key : s'.key = Function.update s.key d k
  len : ∀ b, (s'.m_block b).m_len = if b = d then chunk.length else (s.m_block b).m_len
  idx : ∀ b, (s'.m_block b).m_idx = (s.m_block b).m_idx
  uptime : ∀ b, (s'.m_block b).m_uptime = if b = d then now else (s.m_block b).m_uptime

namespace Filled

variable {s s' : CShmCache} {d k : Nat} {now : Int} {chunk : Bytes}

theorem of_moved {s'' : CShmCache} (h : Filled s s' d k now chunk) (hm : LruMoved s' s'') :
    Filled s s'' d k now chunk := by
  refine ⟨?_, ?_, ?_, ?_, ?_⟩
  · rw [hm.rest, h.rest]
  · exact (funext hm.key).trans h.key
  · intro b
    rw [hm.len, h.len]
  · intro b
    rw [hm.idx, h.idx]
  · intro b
    rw [hm.uptime, h.uptime]

theorem block_num (h : Filled s s' d k now chunk) : s'.m_block_num = s.m_block_num := by
  rw [h.rest]

theorem block_size (h : Filled s s' d k now chunk) : s'.m_block_size = s.m_block_size := by
  rw [h.rest]

theorem timeout (h : Filled s s' d k now chunk) : s'.m_timeout = s.m_timeout := by
  rw [h.rest]

theorem data (h : Filled s s' d k now chunk) :
    s'.m_data_buffer = s.m_data_buffer.write (d * s.m_block_size) chunk := by
  rw [h.rest]

end Filled

/-- The block `d` with its new contents, and the assignments of `InsertHash` to it
before it moves in the LRU list. -/
def hook (s : CShmCache) (d k : Nat) (now : Int) (chunk : Bytes) (pre nxt : Option Nat) :
    CShmCache :=
  let m := k % HASH_MASK
  let s := { s with m_data_buffer := s.m_data_buffer.write (d * s.m_block_size) chunk }
  let s := s.setBlock d
    { s.m_block d with m_key := k, m_uptime := now, m_len := chunk.length, m_next := nxt }
  let s := s.setHash m { s.m_hash m with m_len := u32 ((s.m_hash m).m_len + 1) }
  s.setLink m pre (some d)

section Hook

variable {s : CShmCache} {d k : Nat} {now : Int} {chunk : Bytes} {pre nxt : Option Nat}

theorem hook_block (b : Nat) : (s.hook d k now chunk pre nxt).m_block b =
    { (if b = d then
        { s.m_block d with m_key := k, m_uptime := now, m_len := chunk.length }
      else s.m_block b) with
      m_next := linkNext (Function.update s.hashNext d nxt) pre (some d) b } := by
  have hnext : ∀ t : CShmCache, t.hashNext = Function.update s.hashNext d nxt →
      (t.setLink (k % HASH_MASK) pre (some d)).hashNext b =
        linkNext (Function.update s.hashNext d nxt) pre (some d) b := by
    intro t ht
    rw [setLink_hashNext, ht]
  rw [hook, setLink_block, hnext]
  · by_cases hb : b = d
    · subst hb
      simp [setHash, setBlock]
    · simp [setHash, setBlock, hb]
  · funext a
    by_cases ha : a = d <;> simp [hashNext, setHash, setBlock, ha]

theorem hook_hash : (s.hook d k now chunk pre nxt).m_hash =
    Function.update s.m_hash (k % HASH_MASK)
      ⟨u32 ((s.m_hash (k % HASH_MASK)).m_len + 1),
        linkHead (s.m_hash (k % HASH_MASK)).m_head pre (some d)⟩ := by
  simp [hook, setLink_hash, setHash, setBlock]

theorem hook_filled : Filled s (s.hook d k now chunk pre nxt) d k now chunk := by
  refine ⟨?_, ?_, ?_, ?_, ?_⟩
  · cases pre <;> rfl
  · funext b
    by_cases hb : b = d <;> simp [CShmCache.key, hook_block, hb]
  all_goals
    intro b
    by_cases hb : b = d <;> simp [hook_block, hb]

theorem hook_links : (s.hook d k now chunk pre nxt).links = s.links := by
  simp only [links, Links.mk.injEq]
  constructor <;> funext b <;> by_cases hb : b = d <;> simp [hook_block, hb]

end Hook

/-- `InsertHash` by the position its loop finds. -/
theorem InsertHash.of_position {s : CShmCache} {d k : Nat} (pre cur : Option Nat)
    (hkey : (s.m_block d).m_key = k)
    (hpos : InsertHash.position
      (s.setHash (k % HASH_MASK) { s.m_hash (k % HASH_MASK) with
        m_len := u32 ((s.m_hash (k % HASH_MASK)).m_len + 1) })
      k (s.m_block_num + 1) none (s.m_hash (k % HASH_MASK)).m_head = .ok (pre, cur))
    (hpre : pre ≠ some d) :
    s.InsertHash d =
      .ok ((((s.setHash (k % HASH_MASK) { s.m_hash (k % HASH_MASK) with
          m_len := u32 ((s.m_hash (k % HASH_MASK)).m_len + 1) }).setBlock d
        { s.m_block d with m_next := cur.map fun c => (s.m_block c).m_idx }).setLink
          (k % HASH_MASK) pre (some d)).MoveLRUTail d) := by
  subst hkey
  simp only [setHash] at hpos
  simp only [InsertHash, setHash, hpos]
  exact if_neg hpre

/-- The block `d` with its new contents, before `InsertHash`. -/
def stored (s : CShmCache) (d k : Nat) (now : Int) (chunk : Bytes) : CShmCache :=
  { s with m_data_buffer := s.m_data_buffer.write (d * s.m_block_size) chunk }.setBlock d
    { s.m_block d with m_key := k, m_uptime := now, m_len := chunk.length }

/-- `InsertHash` of a block that was just filled. -/
theorem Inv.insertHash {s : CShmCache} {order as bs : List Nat} {chain : Nat → List Nat}
    {d k : Nat} (h : s.Inv order chain) (now : Int) (chunk : Bytes) (hd : s.key d = 0)
    (hsplit : chain (k % HASH_MASK) = as ++ bs) (has : ∀ a ∈ as, s.key a ≤ k)
    (hbs : ∀ b ∈ bs, k < s.key b) :
    (s.stored d k now chunk).InsertHash d =
      .ok ((s.hook d k now chunk as.getLast? bs.head?).MoveLRUTail d) := by
  have hm := mod_HASH_MASK_lt k
  have hmem : ∀ a ∈ as ++ bs, a < s.m_block_num ∧ a ≠ d := by
    intro a ha
    rw [← hsplit, h.hash.mem _ hm] at ha
    exact ⟨ha.1, fun e => ha.2.1 (e ▸ hd)⟩
  have hlen := h.hash.length_le hm
  have hlinked := h.hash.linked _ hm
  rw [hsplit, List.length_append] at hlen
  rw [hsplit] at hlinked
  have hpre : as.getLast? ≠ some d := by
    intro hlast
    exact (hmem d (List.mem_append_left bs (List.mem_of_getLast? hlast))).2 rfl
  have hcur : bs.head?.map (fun c => ((s.stored d k now chunk).m_block c).m_idx) = bs.head? := by
    cases bs with
    | nil => rfl
    | cons b bs =>
        have hb := hmem b (by simp)
        simp [stored, setBlock, hb.2, h.idx b hb.1]
  -- the walk sees the chain as it was, since the block is not in it yet
  have hnext : ∀ m x, ((s.stored d k now chunk).setHash m x).hashNext = s.hashNext := by
    intro m x
    funext a
    by_cases ha : a = d <;> simp [hashNext, stored, setHash, setBlock, ha]
  have hkeys : ∀ m x a, a ≠ d → ((s.stored d k now chunk).setHash m x).key a = s.key a := by
    intro m x a ha
    simp [key, stored, setHash, setBlock, ha]
  rw [InsertHash.of_position (k := k) as.getLast? bs.head? ?_ ?_ hpre, hcur]
  · simp [hook, stored, setHash, setBlock, Function.update_idem]
  · simp [stored, setBlock]
  · have hhead : ((s.stored d k now chunk).m_hash (k % HASH_MASK)).m_head = (as ++ bs).head? :=
      hlinked.head
    rw [hhead]
    refine @InsertHash.position_eq _ _ _ _ [] as bs ((hnext _ _).symm ▸ hlinked) ?_ ?_ ?_
    · intro a ha
      rw [hkeys _ _ a (hmem a (List.mem_append_left bs ha)).2]
      exact has a ha
    · intro b hb
      rw [hkeys _ _ b (hmem b (List.mem_append_right as hb)).2]
      exact hbs b hb
    · exact Nat.lt_succ_of_le (Nat.le_trans (Nat.le_add_right _ _) hlen)

theorem Set.evict_of_free {s : CShmCache} (h : s.key s.m_lru_head = 0) (fuel : Nat) :
    Set.evict fuel s = .ok s := by
  have hkey : (s.m_block s.m_lru_head).m_key = 0 := h
  rw [Set.evict.eq_def]
  exact if_pos hkey

/-- A block index times the block size stays inside the data blocks. -/
theorem Inv.offset_le {s : CShmCache} {order : List Nat} {chain : Nat → List Nat} {d n : Nat}
    (h : s.Inv order chain) (hd : d < s.m_block_num) (hn : n ≤ s.m_block_size) :
    d * s.m_block_size + n ≤ s.m_data_buffer.size ∧ d * s.m_block_size < 4294967296 := by
  have hmul : (d + 1) * s.m_block_size ≤ s.m_block_num * s.m_block_size :=
    Nat.mul_le_mul_right _ hd
  have hlayout := h.layout
  unfold LayoutFits at hlayout
  rw [Nat.add_mul] at hmul
  rw [h.size]
  omega

/-- One turn of `Set` when the LRU head is free: the block gets the next piece of the
value and becomes the most recent one, last in its key's part of the chain. -/
theorem Inv.put {s : CShmCache} {t : List Nat} {chain : Nat → List Nat} {d k : Nat}
    (h : s.Inv (d :: t) chain) (now : Int) {chunk : Bytes} (hd : s.key d = 0) (hk : k ≠ 0)
    (hc : chunk.length ≤ s.m_block_size) :
    ∃ s' as bs, Set.put s k now chunk = .ok s' ∧ chain (k % HASH_MASK) = as ++ bs ∧
      (∀ a ∈ as, s.key a ≤ k) ∧ (∀ b ∈ bs, k < s.key b) ∧
      s'.Inv (t ++ [d]) (Function.update chain (k % HASH_MASK) (as ++ d :: bs)) ∧
      Filled s s' d k now chunk := by
  have hm := mod_HASH_MASK_lt k
  have hhead : s.m_lru_head = d := by simpa using h.lru.head.symm
  have hdn : d < s.m_block_num :=
    List.mem_range.mp (h.perm.mem_iff.mp List.mem_cons_self)
  obtain ⟨as, bs, hsplit, has, hbs⟩ := (h.hash.sorted _ hm).split k
  set ds := withKey s.key k (chain (k % HASH_MASK)) with hds
  have hle : ∀ a ∈ as ++ ds, s.key a ≤ k := by
    intro a ha
    rcases List.mem_append.mp ha with ha | ha
    · exact (has a ha).le
    · exact (mem_withKey.mp ha).2.le
  have hfilled : Filled s (s.hook d k now chunk (as ++ ds).getLast? bs.head?) d k now chunk :=
    hook_filled
  have hlru : (s.hook d k now chunk (as ++ ds).getLast? bs.head?).InLru ([] ++ d :: t) := by
    refine ⟨?_, ?_, ?_, h.lru.nodup⟩
    · rw [hook_links]
      exact h.lru.ring
    · rw [List.nil_append, h.lru.head, hook]
      cases (as ++ ds).getLast? <;> rfl
    · rw [List.nil_append, h.lru.tail, hook]
      cases (as ++ ds).getLast? <;> rfl
  obtain ⟨hlru', hmoved⟩ := hlru.moveTail
  have hbound := h.offset_le hdn hc
  have hall := hfilled.of_moved hmoved
  refine ⟨_, as ++ ds, bs, ?_, hsplit, hle, hbs, ⟨hlru', ?_, ?_, ?_, ?_, ?_, ?_⟩, hall⟩
  · have hrun := h.insertHash now chunk hd hsplit hle hbs
    have hevict := Set.evict_of_free (hhead ▸ hd) (s.m_block_num + 1)
    have hzero : (s.m_block d).m_key = 0 := hd
    have hstore := s.m_data_buffer.store_eq_some hbound.1
    rw [← hrun, Set.put, hevict]
    simp only [stored, bind, Except.bind, hhead, hzero, ne_eq, not_true_eq_false, if_false,
      h.idx d hdn, u32_of_lt hbound.2, hstore]
  · rw [hall.block_num]
    exact (List.perm_append_singleton d t).trans h.perm
  · refine (h.hash.insert hk h.block_num_lt hsplit hle hbs hdn hd hfilled.block_num hfilled.key
      ?_ hook_hash).of_moved hmoved
    funext b
    simp [hashNext, hook_block]
  · intro b hb
    rw [hall.idx]
    exact h.idx b (by rwa [hall.block_num] at hb)
  · intro b hb
    rw [hall.len, hall.block_size]
    split
    · exact hc
    · exact h.len b (by rwa [hall.block_num] at hb)
  · rw [hall.block_num, hall.block_size]
    exact h.layout
  · rw [hall.data, hall.block_num, hall.block_size]
    exact h.size

end CShmCache

end CommonCc
