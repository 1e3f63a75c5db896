import CommonCc.Utils.ShmCache.Chains

/-!
# Deleting a key

`DeleteHash` takes the blocks of a key out of their chain one after another and
moves each to the head of the LRU list, where the free blocks are.
-/

namespace CommonCc

namespace CShmCache

/-! ## One link -/

section SetLink

variable (s : CShmCache) (k : Nat) (pre v : Option Nat)

theorem setLink_hashNext : (s.setLink k pre v).hashNext = linkNext s.hashNext pre v := by
  cases pre with
  | none => rfl
  | some p =>
      funext b
      by_cases hb : b = p <;> simp [hashNext, setLink, setBlock, linkNext, hb]

theorem setLink_hash : (s.setLink k pre v).m_hash =
    Function.update s.m_hash k
      { s.m_hash k with m_head := linkHead (s.m_hash k).m_head pre v } := by
  cases pre with
  | none => rfl
  | some p => exact (Function.update_eq_self k s.m_hash).symm

/-- Everything but the link of the block. -/
theorem setLink_block (b : Nat) : (s.setLink k pre v).m_block b =
    { s.m_block b with m_next := (s.setLink k pre v).hashNext b } := by
  cases pre with
  | none => rfl
  | some p => by_cases hb : b = p <;> simp [hashNext, setLink, setBlock, hb]

end SetLink

/-! ## One block -/

/-- `s'` is `s` after the blocks `ds` became free, up to the links. -/
structure Freed (s s' : CShmCache) (ds : List Nat) : Prop where
  rest : s' = { s with
    m_block := s'.m_block, m_hash := s'.m_hash,
    m_lru_head := s'.m_lru_head, m_lru_tail := s'.m_lru_tail }
  key : ∀ b, s'.key b = if b ∈ ds then 0 else s.key b
  len : ∀ b, (s'.m_block b).m_len = if b ∈ ds then 0 else (s.m_block b).m_len
  idx : ∀ b, (s'.m_block b).m_idx = (s.m_block b).m_idx
  uptime : ∀ b, (s'.m_block b).m_uptime = (s.m_block b).m_uptime

namespace Freed

variable {s s' s'' : CShmCache} {ds es : List Nat}

theorem refl (s : CShmCache) : Freed s s [] :=
  ⟨rfl, by simp, by simp, fun _ => rfl, fun _ => rfl⟩

theorem trans (h : Freed s s' ds) (h' : Freed s' s'' es) : Freed s s'' (ds ++ es) := by
  refine ⟨?_, ?_, ?_, ?_, ?_⟩
  · rw [h'.rest, h.rest]
  · intro b
    rw [h'.key, h.key]
    by_cases hb : b ∈ es <;> simp [hb]
  · intro b
    rw [h'.len, h.len]
    by_cases hb : b ∈ es <;> simp [hb]
  · intro b
    rw [h'.idx, h.idx]
  · intro b
    rw [h'.uptime, h.uptime]

theorem block_num (h : Freed s s' ds) : s'.m_block_num = s.m_block_num := by
  rw [h.rest]

theorem block_size (h : Freed s s' ds) : s'.m_block_size = s.m_block_size := by
  rw [h.rest]

theorem timeout (h : Freed s s' ds) : s'.m_timeout = s.m_timeout := by
  rw [h.rest]

theorem data (h : Freed s s' ds) : s'.m_data_buffer = s.m_data_buffer := by
  rw [h.rest]

end Freed

/-- `DeleteHash.remove` before the block moves in the LRU list. -/
def unhook (s : CShmCache) (k : Nat) (pre : Option Nat) (cur : Nat) : CShmCache :=
  let s := s.setLink k pre (s.m_block cur).m_next
  let s := s.setBlock cur { s.m_block cur with m_key := 0, m_next := none, m_len := 0 }
  let head := s.m_hash k
  s.setHash k { head with m_len := u32Sub head.m_len 1 }

theorem remove_eq (s : CShmCache) (k : Nat) (pre : Option Nat) (cur : Nat) :
    DeleteHash.remove s k pre cur = (s.unhook k pre cur).MoveLRUHead cur := rfl

theorem unhook_block (s : CShmCache) (k : Nat) (pre : Option Nat) (cur b : Nat) :
    (s.unhook k pre cur).m_block b =
      if b = cur then { s.m_block b with m_key := 0, m_next := none, m_len := 0 }
      else { s.m_block b with m_next := linkNext s.hashNext pre (s.hashNext cur) b } := by
  have hlink := setLink_block s k pre (s.m_block cur).m_next
  by_cases hb : b = cur
  · subst hb
    simp [unhook, setHash, setBlock, hlink]
  · simp only [unhook, setHash, setBlock, hb, if_false, Function.update_of_ne, ne_eq,
      not_false_eq_true]
    rw [hlink, setLink_hashNext]
    rfl

theorem unhook_hash (s : CShmCache) (k : Nat) (pre : Option Nat) (cur : Nat) :
    (s.unhook k pre cur).m_hash = Function.update s.m_hash k
      ⟨u32Sub (s.m_hash k).m_len 1, linkHead (s.m_hash k).m_head pre (s.hashNext cur)⟩ := by
  simp only [unhook, setHash, setBlock, setLink_hash, Function.update_self, Function.update_idem]
  rfl

theorem unhook_freed (s : CShmCache) (k : Nat) (pre : Option Nat) (cur : Nat) :
    Freed s (s.unhook k pre cur) [cur] := by
  refine ⟨?_, ?_, ?_, ?_, ?_⟩
  · cases pre <;> rfl
  all_goals
    intro b
    by_cases hb : b = cur <;> simp [CShmCache.key, unhook_block, hb]

theorem unhook_links (s : CShmCache) (k : Nat) (pre : Option Nat) (cur : Nat) :
    (s.unhook k pre cur).links = s.links := by
  simp only [links, Links.mk.injEq]
  constructor <;> funext b <;> by_cases hb : b = cur <;> simp [unhook_block, hb]

theorem LruMoved.freed {s s' : CShmCache} (h : LruMoved s s') : Freed s s' [] := by
  refine ⟨?_, ?_, ?_, h.idx, h.uptime⟩
  · rw [h.rest]
  · simpa [CShmCache.key] using h.key
  · simpa using h.len

theorem Inv.block_num_lt {s : CShmCache} {order : List Nat} {chain : Nat → List Nat}
    (h : s.Inv order chain) : s.m_block_num + 1 < 4294967296 := by
  have := h.layout
  unfold LayoutFits HASH_MASK at this
  omega

/-- One removal keeps the invariant: the block leaves its chain and goes to the LRU
head. -/
theorem Inv.remove {s : CShmCache} {xs ys as bs : List Nat} {chain : Nat → List Nat} {k d : Nat}
    (h : s.Inv (xs ++ d :: ys) chain) (hk : k < HASH_MASK) (hsplit : chain k = as ++ d :: bs) :
    (DeleteHash.remove s k as.getLast? d).Inv (d :: (xs ++ ys))
        (Function.update chain k (as ++ bs)) ∧
      Freed s (DeleteHash.remove s k as.getLast? d) [d] := by
  have hfreed := unhook_freed s k as.getLast? d
  have hlru : (s.unhook k as.getLast? d).InLru (xs ++ d :: ys) := by
    refine ⟨?_, ?_, ?_, h.lru.nodup⟩
    · rw [unhook_links]
      exact h.lru.ring
    · rw [h.lru.head]
      cases as.getLast? <;> rfl
    · rw [h.lru.tail]
      cases as.getLast? <;> rfl
  obtain ⟨hlru', hmoved⟩ := hlru.moveHead
  rw [remove_eq]
  have hall : Freed s ((s.unhook k as.getLast? d).MoveLRUHead d) [d] := hfreed.trans hmoved.freed
  refine ⟨⟨hlru', ?_, ?_, ?_, ?_, ?_, ?_⟩, hall⟩
  · rw [hall.block_num]
    exact List.perm_middle.symm.trans h.perm
  · refine (h.hash.remove hk (by have := h.block_num_lt; omega) hsplit hfreed.block_num
      ?_ ?_ (unhook_hash s k _ d)).of_moved hmoved
    · funext b
      by_cases hb : b = d <;> simp [hfreed.key, hb]
    · funext b
      by_cases hb : b = d <;> simp [hashNext, unhook_block, hb]
  · intro b hb
    rw [hall.idx]
    exact h.idx b (by rwa [hall.block_num] at hb)
  · intro b hb
    rw [hall.len, hall.block_size]
    split
    · exact Nat.zero_le _
    · exact h.len b (by rwa [hall.block_num] at hb)
  · rw [hall.block_num, hall.block_size]
    exact h.layout
  · rw [hall.data, hall.block_num, hall.block_size]
    exact h.size

/-! ## The loop -/

/-- The loop of `DeleteHash` passes the blocks of lower keys. -/
theorem DeleteHash.loop_skip {s : CShmCache} {k fuel : Nat} {head : Option Nat}
    {ps as rest : List Nat} (h : Linked s.hashNext head (ps ++ as ++ rest))
    (has : ∀ a ∈ as, s.key a < k) :
    DeleteHash.loop k (as.length + fuel) ps.getLast? (as ++ rest).head? s =
      DeleteHash.loop k fuel (ps ++ as).getLast? rest.head? s := by
  induction as generalizing ps with
  | nil => simp
  | cons a as ih =>
      obtain ⟨hlt, has⟩ := List.forall_mem_cons.mp has
      have hkey : (s.m_block a).m_key < k := hlt
      have hnext : (s.m_block a).m_next = (as ++ rest).head? := by
        rw [List.append_assoc, List.cons_append] at h
        exact h.next_eq
      have hrest : ps ++ a :: as = ps ++ [a] ++ as := List.append_cons ps a as
      rw [hrest] at h ⊢
      rw [List.length_cons, Nat.add_right_comm, List.cons_append, List.head?_cons, ← ih h has,
        List.getLast?_concat, DeleteHash.loop]
      simp only [hkey.ne, if_false, gt_iff_lt, hkey, if_true, hnext]

/-- The loop of `DeleteHash` removes the blocks of its key and stops behind them. -/
theorem Inv.delete_loop {s : CShmCache} {k fuel : Nat} {xs ys as ds bs : List Nat}
    {chain : Nat → List Nat} (h : s.Inv (xs ++ ds ++ ys) chain)
    (hsplit : chain (k % HASH_MASK) = as ++ ds ++ bs) (hds : ∀ d ∈ ds, s.key d = k)
    (hbs : ∀ b ∈ bs, k < s.key b) (hfuel : 0 < fuel) :
    ∃ s', DeleteHash.loop k (ds.length + fuel) as.getLast? (ds ++ bs).head? s = .ok s' ∧
      s'.Inv (ds.reverse ++ xs ++ ys) (Function.update chain (k % HASH_MASK) (as ++ bs)) ∧
      Freed s s' ds := by
  have hm := mod_HASH_MASK_lt k
  induction ds generalizing s xs chain with
  | nil =>
      obtain ⟨fuel, rfl⟩ := Nat.exists_eq_succ_of_ne_zero hfuel.ne'
      refine ⟨s, ?_, ?_, .refl s⟩
      · cases bs with
        | nil => rfl
        | cons b bs =>
            have hgt : k < (s.m_block b).m_key := hbs b List.mem_cons_self
            simp [DeleteHash.loop, hgt.ne', Nat.not_lt.mpr hgt.le]
      · rw [List.append_nil] at hsplit
        rw [← hsplit, Function.update_eq_self]
        simpa using h
  | cons d ds ih =>
      obtain ⟨hd, hds⟩ := List.forall_mem_cons.mp hds
      have hnodup := h.hash.nodup _ hm
      have hlinked := h.hash.linked _ hm
      rw [List.append_assoc, List.cons_append] at hsplit
      rw [hsplit] at hnodup hlinked
      have hnext : (s.m_block d).m_next = (ds ++ bs).head? := hlinked.next_eq
      have hd' : d ∉ as ++ (ds ++ bs) := (List.nodup_middle.mp hnodup).notMem
      rw [List.append_assoc, List.cons_append] at h
      obtain ⟨h₁, hf₁⟩ := h.remove hm hsplit
      have hkeep : ∀ a ∈ ds ++ bs,
          (DeleteHash.remove s (k % HASH_MASK) as.getLast? d).key a = s.key a := by
        intro a ha
        have hne : a ≠ d := ne_of_mem_of_not_mem (List.mem_append_right as ha) hd'
        rw [hf₁.key, if_neg (by simpa using hne)]
      rw [← List.append_assoc, ← List.cons_append, ← List.cons_append] at h₁
      obtain ⟨s', hrun, hinv, hf⟩ := ih h₁ (by rw [Function.update_self, List.append_assoc])
        (fun a ha => (hkeep a (List.mem_append_left bs ha)).trans (hds a ha))
        (fun b hb => by
          rw [hkeep b (List.mem_append_right ds hb)]
          exact hbs b hb)
      refine ⟨s', ?_, ?_, hf₁.trans hf⟩
      · have hdk : (s.m_block d).m_key = k := hd
        rw [List.length_cons, Nat.add_right_comm, List.cons_append, List.head?_cons,
          DeleteHash.loop, ← hrun]
        simp only [hdk, if_true, hnext]
      · rw [Function.update_idem] at hinv
        simpa using hinv

/-- `DeleteHash` frees exactly the blocks of its key; they go to the LRU head, the
last one first. -/
theorem Inv.deleteHash {s : CShmCache} {k : Nat} {xs ys ds : List Nat} {chain : Nat → List Nat}
    (h : s.Inv (xs ++ ds ++ ys) chain)
    (hds : withKey s.key k (chain (k % HASH_MASK)) = ds) :
    ∃ s', s.DeleteHash k = .ok s' ∧
      s'.Inv (ds.reverse ++ xs ++ ys) (Function.update chain (k % HASH_MASK)
        (withoutKey s.key k (chain (k % HASH_MASK)))) ∧
      Freed s s' ds := by
  have hm := mod_HASH_MASK_lt k
  obtain ⟨as, bs, hsplit, has, hbs⟩ := (h.hash.sorted _ hm).split k
  have hlinked := h.hash.linked _ hm
  have hlen := h.hash.length_le hm
  rw [hds] at hsplit
  have hall : ∀ d ∈ ds, s.key d = k := by
    intro d hd
    rw [← hds] at hd
    exact (mem_withKey.mp hd).2
  have hrest : withoutKey s.key k (chain (k % HASH_MASK)) = as ++ bs := by
    have hnone : withoutKey s.key k ds = [] := by
      refine List.filter_eq_nil_iff.mpr fun d hd => ?_
      simpa using hall d hd
    rw [hsplit, withoutKey_append, withoutKey_append, hnone, List.append_nil,
      withoutKey_eq_self.mpr fun a ha => (has a ha).ne,
      withoutKey_eq_self.mpr fun b hb => (hbs b hb).ne']
  rw [hsplit, List.length_append, List.length_append] at hlen
  have hpos : 0 < s.m_block_num + 1 - as.length - ds.length := by omega
  obtain ⟨s', hrun, hinv, hf⟩ := h.delete_loop hsplit hall hbs hpos
  refine ⟨s', ?_, by rwa [hrest], hf⟩
  rw [DeleteHash, hlinked.head, hsplit, ← hrun, List.append_assoc]
  rw [hsplit, ← List.nil_append as, List.append_assoc ([] ++ as)] at hlinked
  have hskip := @DeleteHash.loop_skip _ _ (ds.length + (s.m_block_num + 1 - as.length - ds.length))
    _ [] as (ds ++ bs) hlinked has
  have hfuel : as.length + (ds.length + (s.m_block_num + 1 - as.length - ds.length)) =
      s.m_block_num + 1 := by omega
  rwa [hfuel] at hskip

end CShmCache

end CommonCc
