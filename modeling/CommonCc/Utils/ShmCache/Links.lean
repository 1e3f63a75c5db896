import CommonCc.Utils.ShmCache.Model

/-!
# Moves in the two linked structures

`InLru` says that the LRU links form the ring of a list of blocks; the two moves
change that list and leave everything but the LRU links alone.
-/

namespace CommonCc

/-- A block head without its LRU links. -/
def SBlockHead.body (b : SBlockHead) : SBlockHead := { b with m_lru_pre := 0, m_lru_next := 0 }

namespace CShmCache

/-- The LRU links of the blocks. -/
def links (s : CShmCache) : Links Nat :=
  ⟨fun b => (s.m_block b).m_lru_pre, fun b => (s.m_block b).m_lru_next⟩

/-- `s'` differs from `s` in its LRU list only. -/
structure LruMoved (s s' : CShmCache) : Prop where
  rest : s' = { s with
    m_block := s'.m_block, m_lru_head := s'.m_lru_head, m_lru_tail := s'.m_lru_tail }
  body : ∀ b, (s'.m_block b).body = (s.m_block b).body

namespace LruMoved

variable {s s' s'' : CShmCache}

theorem refl (s : CShmCache) : LruMoved s s := ⟨rfl, fun _ => rfl⟩

theorem trans (h : LruMoved s s') (h' : LruMoved s' s'') : LruMoved s s'' := by
  refine ⟨?_, fun b => (h'.body b).trans (h.body b)⟩
  rw [h'.rest, h.rest]

theorem withHead (h : LruMoved s s') (v : Nat) : LruMoved s { s' with m_lru_head := v } := by
  refine ⟨?_, h.body⟩
  rw [h.rest]

theorem withTail (h : LruMoved s s') (v : Nat) : LruMoved s { s' with m_lru_tail := v } := by
  refine ⟨?_, h.body⟩
  rw [h.rest]

theorem key (h : LruMoved s s') (b : Nat) : (s'.m_block b).m_key = (s.m_block b).m_key :=
  (congrArg SBlockHead.m_key (h.body b) :)

theorem idx (h : LruMoved s s') (b : Nat) : (s'.m_block b).m_idx = (s.m_block b).m_idx :=
  (congrArg SBlockHead.m_idx (h.body b) :)

theorem len (h : LruMoved s s') (b : Nat) : (s'.m_block b).m_len = (s.m_block b).m_len :=
  (congrArg SBlockHead.m_len (h.body b) :)

theorem next (h : LruMoved s s') (b : Nat) : (s'.m_block b).m_next = (s.m_block b).m_next :=
  (congrArg SBlockHead.m_next (h.body b) :)

theorem uptime (h : LruMoved s s') (b : Nat) :
    (s'.m_block b).m_uptime = (s.m_block b).m_uptime :=
  (congrArg SBlockHead.m_uptime (h.body b) :)

theorem block_num (h : LruMoved s s') : s'.m_block_num = s.m_block_num := by
  rw [h.rest]

theorem block_size (h : LruMoved s s') : s'.m_block_size = s.m_block_size := by
  rw [h.rest]

theorem timeout (h : LruMoved s s') : s'.m_timeout = s.m_timeout := by
  rw [h.rest]

theorem data (h : LruMoved s s') : s'.m_data_buffer = s.m_data_buffer := by
  rw [h.rest]

theorem hash (h : LruMoved s s') : s'.m_hash = s.m_hash := by
  rw [h.rest]

end LruMoved

/-! ## The six assignments -/

theorem lru_pre_eq (s : CShmCache) (b : Nat) : (s.m_block b).m_lru_pre = s.links.pre b := rfl

theorem lru_next_eq (s : CShmCache) (b : Nat) : (s.m_block b).m_lru_next = s.links.next b := rfl

theorem links_setLruPre (s : CShmCache) (idx v : Nat) :
    (s.setLruPre idx v).links = s.links.setPre idx v := by
  simp only [links, setLruPre, setBlock, Links.setPre, Links.mk.injEq]
  constructor <;> funext b <;> by_cases hb : b = idx <;> simp [hb]

theorem links_setLruNext (s : CShmCache) (idx v : Nat) :
    (s.setLruNext idx v).links = s.links.setNext idx v := by
  simp only [links, setLruNext, setBlock, Links.setNext, Links.mk.injEq]
  constructor <;> funext b <;> by_cases hb : b = idx <;> simp [hb]

theorem setLruPre_moved (s : CShmCache) (idx v : Nat) : LruMoved s (s.setLruPre idx v) := by
  refine ⟨rfl, fun b => ?_⟩
  by_cases hb : b = idx <;> simp [setLruPre, setBlock, SBlockHead.body, hb]

theorem setLruNext_moved (s : CShmCache) (idx v : Nat) : LruMoved s (s.setLruNext idx v) := by
  refine ⟨rfl, fun b => ?_⟩
  by_cases hb : b = idx <;> simp [setLruNext, setBlock, SBlockHead.body, hb]

theorem relinkLRU_moved (s : CShmCache) (idx : Nat) : LruMoved s (s.relinkLRU idx) :=
  (setLruNext_moved _ _ _).trans <| (setLruPre_moved _ _ _).trans <|
    (setLruPre_moved _ _ _).trans <| (setLruNext_moved _ _ _).trans <|
    (setLruNext_moved _ _ _).trans (setLruPre_moved _ _ _)

@[simp] theorem setLruPre_head (s : CShmCache) (idx v : Nat) :
    (s.setLruPre idx v).m_lru_head = s.m_lru_head := rfl

@[simp] theorem setLruNext_head (s : CShmCache) (idx v : Nat) :
    (s.setLruNext idx v).m_lru_head = s.m_lru_head := rfl

@[simp] theorem setLruPre_tail (s : CShmCache) (idx v : Nat) :
    (s.setLruPre idx v).m_lru_tail = s.m_lru_tail := rfl

@[simp] theorem setLruNext_tail (s : CShmCache) (idx v : Nat) :
    (s.setLruNext idx v).m_lru_tail = s.m_lru_tail := rfl

theorem relinkLRU_head (s : CShmCache) (idx : Nat) :
    (s.relinkLRU idx).m_lru_head = s.m_lru_head := by
  simp only [relinkLRU, setLruPre_head, setLruNext_head]

theorem relinkLRU_tail (s : CShmCache) (idx : Nat) :
    (s.relinkLRU idx).m_lru_tail = s.m_lru_tail := by
  simp only [relinkLRU, setLruPre_tail, setLruNext_tail]

theorem relinkLRU_links (s : CShmCache) (idx : Nat) :
    (s.relinkLRU idx).links = s.links.splice idx s.m_lru_head s.m_lru_tail := by
  simp only [relinkLRU, lru_pre_eq, lru_next_eq, links_setLruPre, links_setLruNext,
    setLruPre_head, setLruNext_head, setLruPre_tail, setLruNext_tail, Links.splice]

/-! ## The LRU list -/

/-- The blocks in LRU order. -/
structure InLru (s : CShmCache) (order : List Nat) : Prop where
  ring : s.links.Cyclic order
  head : order.head? = some s.m_lru_head
  tail : order.getLast? = some s.m_lru_tail
  nodup : order.Nodup

namespace InLru

variable {s : CShmCache} {xs ys : List Nat} {idx : Nat}

/-- Seen from a block that is not the tail, the tail is behind it. -/
theorem tail_mem (h : s.InLru (xs ++ idx :: ys)) (ht : s.m_lru_tail ≠ idx) :
    s.m_lru_tail ∈ ys.getLast? := by
  have hlast := h.tail
  rcases ys.eq_nil_or_concat with rfl | ⟨ys, y, rfl⟩
  · simp only [List.getLast?_concat, Option.some.injEq] at hlast
    exact absurd hlast.symm ht
  · simp only [List.concat_eq_append, ← List.cons_append, ← List.append_assoc,
      List.getLast?_concat, Option.some.injEq, Option.mem_some] at hlast ⊢
    exact hlast

theorem head_mem (h : s.InLru (xs ++ idx :: ys)) (hh : s.m_lru_head ≠ idx) :
    s.m_lru_head ∈ xs.head? := by
  cases xs with
  | nil => exact absurd (by simpa using h.head.symm) hh
  | cons x xs => simpa using h.head

theorem eq_nil_of_tail (h : s.InLru (xs ++ idx :: ys)) (ht : s.m_lru_tail = idx) : ys = [] := by
  rcases ys.eq_nil_or_concat with rfl | ⟨ys, y, rfl⟩
  · rfl
  · have hlast := h.tail
    simp only [List.concat_eq_append, ← List.cons_append, ← List.append_assoc,
      List.getLast?_concat, Option.some.injEq] at hlast
    have := h.nodup
    grind

theorem eq_nil_of_head (h : s.InLru (xs ++ idx :: ys)) (hh : s.m_lru_head = idx) : xs = [] := by
  cases xs with
  | nil => rfl
  | cons x xs =>
      have hfirst : x = s.m_lru_head := by simpa using h.head
      have := h.nodup
      grind

theorem relinked (h : s.InLru (xs ++ idx :: ys)) (ht : s.m_lru_tail ≠ idx)
    (hh : s.m_lru_head ≠ idx) : (s.relinkLRU idx).links.Cyclic (xs ++ ys ++ [idx]) := by
  rw [relinkLRU_links]
  exact h.ring.splice h.nodup (h.head_mem hh) (h.tail_mem ht)

/-- `MoveLRUTail` makes a block the most recent one. -/
theorem moveTail (h : s.InLru (xs ++ idx :: ys)) :
    (s.MoveLRUTail idx).InLru (xs ++ ys ++ [idx]) ∧ LruMoved s (s.MoveLRUTail idx) := by
  have hperm : (xs ++ ys ++ [idx]).Perm (xs ++ idx :: ys) := by
    rw [List.append_assoc]
    exact (List.perm_append_singleton idx ys).append_left xs
  have hnodup := hperm.nodup_iff.mpr h.nodup
  unfold MoveLRUTail
  split
  · rename_i ht
    obtain rfl := h.eq_nil_of_tail ht
    simpa using ⟨h, LruMoved.refl s⟩
  · rename_i ht
    split
    · -- the ring turns by one block
      rename_i hh
      obtain rfl := h.eq_nil_of_head hh
      refine ⟨⟨h.ring.rotate, ?_, ?_, hnodup⟩, rfl, fun _ => rfl⟩
      · cases ys with
        | nil => exact absurd (by simpa using h.tail.symm) ht
        | cons y ys =>
            have hadj := (List.isChain_cons_cons.mp h.ring.chain).1
            exact congrArg some hadj.1.symm
      · simp [hh]
    · rename_i hh
      refine ⟨⟨h.relinked ht hh, ?_, ?_, hnodup⟩, (relinkLRU_moved s idx).withTail idx⟩
      · rw [List.append_assoc, relinkLRU_head]
        exact List.mem_head?_append_of_mem_head? (h.head_mem hh)
      · exact List.getLast?_concat

/-- `MoveLRUHead` makes a block the first one to be reused. -/
theorem moveHead (h : s.InLru (xs ++ idx :: ys)) :
    (s.MoveLRUHead idx).InLru (idx :: (xs ++ ys)) ∧ LruMoved s (s.MoveLRUHead idx) := by
  have hnodup : (idx :: (xs ++ ys)).Nodup := List.perm_middle.nodup_iff.mp h.nodup
  unfold MoveLRUHead
  split
  · rename_i hh
    obtain rfl := h.eq_nil_of_head hh
    exact ⟨h, LruMoved.refl s⟩
  · rename_i hh
    split
    · rename_i ht
      obtain rfl := h.eq_nil_of_tail ht
      have hring : s.links.Cyclic (idx :: (xs ++ [])) := by
        rw [List.append_nil]
        exact h.ring.rotate_last
      refine ⟨⟨hring, ?_, ?_, hnodup⟩, rfl, fun _ => rfl⟩
      · simp [ht]
      · rcases xs.eq_nil_or_concat with rfl | ⟨xs, x, rfl⟩
        · exact absurd (by simpa using h.head.symm) hh
        · have hring := h.ring.chain
          simp only [List.concat_eq_append, List.append_assoc, List.singleton_append] at hring
          have hadj := (List.isChain_append_cons_cons.mp hring).2.1
          simp only [List.concat_eq_append, List.append_nil, ← List.cons_append,
            List.getLast?_concat]
          exact congrArg some hadj.2.symm
    · rename_i ht
      refine ⟨⟨(h.relinked ht hh).rotate_last, rfl, ?_, hnodup⟩,
        (relinkLRU_moved s idx).withHead idx⟩
      rw [← List.cons_append, relinkLRU_tail]
      exact List.mem_getLast?_append_of_mem_getLast? (h.tail_mem ht)

end InLru

end CShmCache

end CommonCc
