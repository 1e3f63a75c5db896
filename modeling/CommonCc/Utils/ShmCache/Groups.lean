import CommonCc.Lib.Keyed
import CommonCc.Utils.ShmCache.Lookup

/-!
# Keys and their blocks

The blocks of a key stand together in the LRU list, in the order of the chain.
`Rep` lists the free blocks and the groups of blocks of the stored keys; every
operation of the cache is an operation on these lists.
-/

namespace CommonCc

/-- A stored key with its blocks, in the order of the value. -/
structure Group where
  key : Nat
  uptime : Int
  blocks : List Nat

namespace CShmCache

/-- The blocks of several groups. -/
def blocksOf (gs : List Group) : List Nat := gs.flatMap Group.blocks

theorem blocksOf_append (gs gs' : List Group) :
    blocksOf (gs ++ gs') = blocksOf gs ++ blocksOf gs' := List.flatMap_append

theorem blocksOf_singleton (g : Group) : blocksOf [g] = g.blocks := by
  simp [blocksOf]

/-- The group of the key that `Set` is writing, once it has a block. -/
def pending (k : Nat) (now : Int) (blocks : List Nat) : List Group :=
  if blocks = [] then [] else [⟨k, now, blocks⟩]

theorem blocksOf_pending (k : Nat) (now : Int) (blocks : List Nat) :
    blocksOf (pending k now blocks) = blocks := by
  unfold pending
  split
  · rename_i h
    simp [blocksOf, h]
  · exact blocksOf_singleton _

theorem pending_concat (k : Nat) (now : Int) (blocks : List Nat) (d : Nat) :
    pending k now (blocks ++ [d]) = [⟨k, now, blocks ++ [d]⟩] :=
  if_neg (by simp)

theorem mem_pending {k : Nat} {now : Int} {blocks : List Nat} {g : Group} :
    g ∈ pending k now blocks ↔ blocks ≠ [] ∧ g = ⟨k, now, blocks⟩ := by
  unfold pending
  split <;> simp_all

theorem blocksOf_withKey_pending (k k' : Nat) (now : Int) (blocks : List Nat) :
    blocksOf (withKey Group.key k' (pending k now blocks)) = if k' = k then blocks else [] := by
  rcases eq_or_ne k' k with rfl | hk
  · rw [if_pos rfl, withKey_eq_self.mpr, blocksOf_pending]
    exact fun g hg => by rw [(mem_pending.mp hg).2]
  · rw [if_neg hk, withKey_eq_nil.mpr]
    · rfl
    · exact fun g hg e => hk (by rw [← e, (mem_pending.mp hg).2])

/-- The free blocks, then the groups from the least recently used key on. -/
structure Rep (s : CShmCache) (chain : Nat → List Nat) (free : List Nat) (gs : List Group) :
    Prop where
  inv : s.Inv (free ++ blocksOf gs) chain
  keyed : ∀ k, withKey s.key k (chain (k % HASH_MASK)) = blocksOf (withKey Group.key k gs)
  free : ∀ b ∈ free, s.key b = 0
  used : ∀ g ∈ gs, g.key ≠ 0 ∧ g.blocks ≠ []
  uptime : ∀ g ∈ gs, ∀ b ∈ g.blocks, (s.m_block b).m_uptime = g.uptime
  distinct : (gs.map Group.key).Nodup

namespace Rep

variable {s s' : CShmCache} {chain : Nat → List Nat} {free : List Nat} {gs : List Group}

/-- The blocks of a group carry its key. -/
theorem key (h : s.Rep chain free gs) {g : Group} (hg : g ∈ gs) {b : Nat} (hb : b ∈ g.blocks) :
    s.key b = g.key := by
  have hmem : b ∈ blocksOf (withKey Group.key g.key gs) :=
    List.mem_flatMap.mpr ⟨g, mem_withKey.mpr ⟨hg, rfl⟩, hb⟩
  rw [← h.keyed g.key] at hmem
  exact (mem_withKey.mp hmem).2

theorem nodup (h : s.Rep chain free gs) : (free ++ blocksOf gs).Nodup :=
  h.inv.lru.nodup

theorem block_lt (h : s.Rep chain free gs) {g : Group} (hg : g ∈ gs) {b : Nat} (hb : b ∈ g.blocks) :
    b < s.m_block_num := by
  refine List.mem_range.mp (h.inv.perm.mem_iff.mp (List.mem_append_right free ?_))
  exact List.mem_flatMap.mpr ⟨g, hg, hb⟩

/-- `DeleteHash` of a stored or an absent key. -/
theorem deleteHash (h : s.Rep chain free gs) (k : Nat) :
    ∃ s', s.DeleteHash k = .ok s' ∧
      s'.Rep (Function.update chain (k % HASH_MASK) (withoutKey s.key k (chain (k % HASH_MASK))))
        ((blocksOf (withKey Group.key k gs)).reverse ++ free) (withoutKey Group.key k gs) ∧
      Freed s s' (blocksOf (withKey Group.key k gs)) := by
  have hinv := h.inv
  have hchain := h.keyed
  obtain ⟨as, bs, hgs, hrest⟩ := exists_split_key h.distinct k
  generalize hds : withKey Group.key k gs = ds at *
  have hblocks : blocksOf gs = blocksOf as ++ blocksOf ds ++ blocksOf bs := by
    rw [hgs, blocksOf_append, blocksOf_append]
  rw [hblocks, ← List.append_assoc, ← List.append_assoc] at hinv
  have hkk : withKey s.key k (chain (k % HASH_MASK)) = blocksOf ds := by rw [hchain, hds]
  obtain ⟨s', hrun, hinv', hf⟩ := hinv.deleteHash hkk
  have hkeep : ∀ j < HASH_MASK, ∀ b ∈ Function.update chain (k % HASH_MASK)
      (withoutKey s.key k (chain (k % HASH_MASK))) j, s'.key b = s.key b := by
    intro j hj b hb
    have hbk : s.key b ≠ k := by
      rcases eq_or_ne j (k % HASH_MASK) with rfl | hjk
      · rw [Function.update_self] at hb
        exact (mem_withoutKey.mp hb).2
      · rw [Function.update_of_ne hjk] at hb
        rintro rfl
        exact hjk ((hinv.hash.mem j hj b).mp hb).2.2.symm
    have hbds : b ∉ blocksOf ds := by
      rw [← hkk]
      exact fun hmem => hbk (mem_withKey.mp hmem).2
    rw [hf.key, if_neg hbds]
  refine ⟨s', hrun, ⟨?_, ?_, ?_, ?_, ?_, nodup_map_withoutKey h.distinct k⟩, hf⟩
  · rw [hrest, blocksOf_append, ← List.append_assoc, List.append_assoc _ free]
    exact hinv'
  · intro k'
    rw [withKey_congr (hkeep _ (mod_HASH_MASK_lt k'))]
    rcases eq_or_ne k' k with rfl | hk'
    · rw [Function.update_self, withKey_withoutKey_self, withKey_withoutKey_self]
      rfl
    · rw [withKey_withoutKey_of_ne hk', ← hchain k']
      rcases eq_or_ne (k' % HASH_MASK) (k % HASH_MASK) with hm | hm
      · rw [hm, Function.update_self, withKey_withoutKey_of_ne hk']
      · rw [Function.update_of_ne hm]
  · intro b hb
    rw [hf.key]
    rcases List.mem_append.mp hb with hb | hb
    · rw [if_pos (List.mem_reverse.mp hb)]
    · split
      · rfl
      · exact h.free b hb
  · exact fun g hg => h.used g (mem_withoutKey.mp hg).1
  · intro g hg b hb
    rw [hf.uptime]
    exact h.uptime g (mem_withoutKey.mp hg).1 b hb

/-- The LRU moves of `Get` bring a group to the end. -/
theorem touch (h : s.Rep chain free gs) (k : Nat) (now : Int)
    (hfresh : ∀ b ∈ blocksOf (withKey Group.key k gs), ¬ s.expired now b) :
    ∃ s', Get.loop k now (s.m_block_num + 1) (s.m_hash (k % HASH_MASK)).m_head
        ERR_KEY_NO_EXIST [] s =
          .ok ((if blocksOf (withKey Group.key k gs) = [] then ERR_KEY_NO_EXIST else ERR_OK,
            (blocksOf (withKey Group.key k gs)).flatMap s.contents), s') ∧
      s'.Rep chain free (withoutKey Group.key k gs ++ withKey Group.key k gs) ∧ LruMoved s s' := by
  have hinv := h.inv
  have hchain := h.keyed
  obtain ⟨as, bs, hgs, hrest⟩ := exists_split_key h.distinct k
  have hdistinct := nodup_map_touch h.distinct k
  have hkeys : ∀ k', withKey Group.key k' (withoutKey Group.key k gs ++ withKey Group.key k gs) =
      withKey Group.key k' gs := fun k' => withKey_touch gs
  have hmem : ∀ g ∈ withoutKey Group.key k gs ++ withKey Group.key k gs, g ∈ gs := by
    intro g hg
    rcases List.mem_append.mp hg with hg | hg
    · exact (mem_withoutKey.mp hg).1
    · exact (mem_withKey.mp hg).1
  generalize hds : withKey Group.key k gs = ds at *
  have hblocks : blocksOf gs = blocksOf as ++ blocksOf ds ++ blocksOf bs := by
    rw [hgs, blocksOf_append, blocksOf_append]
  rw [hblocks, ← List.append_assoc, ← List.append_assoc] at hinv
  obtain ⟨s', hrun, hinv', hm⟩ := hinv.get_fresh (by rw [hchain, hds]) hfresh
  have hkey : s'.key = s.key := funext hm.key
  refine ⟨s', hrun, ⟨?_, ?_, ?_, ?_, ?_, hdistinct⟩, hm⟩
  · rw [hrest, blocksOf_append, blocksOf_append, ← List.append_assoc, ← List.append_assoc]
    exact hinv'
  · intro k'
    rw [hkey, hchain, hkeys]
  · rw [hkey]
    exact h.free
  · exact fun g hg => h.used g (hmem g hg)
  · intro g hg b hb
    rw [hm.uptime]
    exact h.uptime g (hmem g hg) b hb

/-- `Get` of a key whose time is over deletes it. -/
theorem timeOut (h : s.Rep chain free gs) {k : Nat} {now : Int} {g : Group} (hg : g ∈ gs)
    (hk : g.key = k) (hold : ∀ b ∈ g.blocks, s.expired now b) :
    Get.loop k now (s.m_block_num + 1) (s.m_hash (k % HASH_MASK)).m_head
        ERR_KEY_NO_EXIST [] s =
      (s.DeleteHash k).map fun s' => ((ERR_KEY_TIMEOUT, []), s') := by
  have hinv := h.inv
  have hchain := h.keyed
  obtain ⟨as, bs, hgs, -⟩ := exists_split_key h.distinct k
  have hkk := hchain k
  rw [withKey_eq_singleton h.distinct hg hk] at hgs hkk
  rw [hgs, blocksOf_append, blocksOf_append, ← List.append_assoc, ← List.append_assoc] at hinv
  rw [blocksOf_singleton] at hinv hkk
  cases hblocks : g.blocks with
  | nil => exact absurd hblocks (h.used g hg).2
  | cons b blocks =>
      rw [hblocks] at hinv hkk
      exact hinv.get_expired hkk (hold b (by simp [hblocks]))

/-- One turn of `Set` with a free block: the key being written is the last group. -/
theorem put {d k : Nat} {now : Int} {blocks : List Nat} {chunk : Bytes}
    (h : s.Rep chain (d :: free) (gs ++ pending k now blocks)) (hk : k ≠ 0)
    (hnew : ∀ g ∈ gs, g.key ≠ k) (hc : chunk.length ≤ s.m_block_size) :
    ∃ s' chain', Set.put s k now chunk = .ok s' ∧
      s'.Rep chain' free (gs ++ pending k now (blocks ++ [d])) ∧ Filled s s' d k now chunk := by
  have hinv := h.inv
  have hchain := h.keyed
  obtain ⟨s', as, bs, hrun, hsplit, has, hbs, hinv', hf⟩ :=
    hinv.put now (h.free d List.mem_cons_self) hk hc
  replace hinv' : s'.Inv (free ++ blocksOf (gs ++ pending k now (blocks ++ [d])))
      (Function.update chain (k % HASH_MASK) (as ++ d :: bs)) := by
    rw [blocksOf_append, blocksOf_pending] at hinv' ⊢
    simpa using hinv'
  have hd : ∀ j < HASH_MASK, ∀ b ∈ chain j, b ≠ d := by
    rintro j hj b hb rfl
    exact ((hinv.hash.mem j hj b).mp hb).2.1 (h.free b List.mem_cons_self)
  have hdfree : d ∉ free ∧ d ∉ blocksOf gs ∧ d ∉ blocks := by
    have hnodup := h.nodup
    rw [blocksOf_append, blocksOf_pending, List.cons_append, List.nodup_cons] at hnodup
    simpa using hnodup.1
  have hkeep : ∀ j < HASH_MASK, ∀ b ∈ chain j, s'.key b = s.key b := by
    intro j hj b hb
    rw [hf.key, Function.update_of_ne (hd j hj b hb)]
  have hkeys : ∀ k', withKey s'.key k'
      (Function.update chain (k % HASH_MASK) (as ++ d :: bs) (k' % HASH_MASK)) =
        withKey s.key k' (chain (k' % HASH_MASK)) ++ if k' = k then [d] else [] := by
    intro k'
    have hm := mod_HASH_MASK_lt k'
    rcases eq_or_ne (k' % HASH_MASK) (k % HASH_MASK) with hk' | hk'
    · have hdk : s'.key d = k := by rw [hf.key, Function.update_self]
      have hsame : ∀ a ∈ as ++ bs, s'.key a = s.key a := fun a ha =>
        hkeep _ hm a (by rwa [hk', hsplit])
      have hlater : ∀ b ∈ bs, s'.key b ≠ s'.key d := by
        intro b hb
        rw [hsame b (List.mem_append_right as hb), hdk]
        exact (hbs b hb).ne'
      rw [hk', Function.update_self, hsplit, withKey_insert hlater, hdk, withKey_congr hsame]
    · have hne : k' ≠ k := fun e => hk' (by rw [e])
      rw [Function.update_of_ne hk', if_neg hne, List.append_nil]
      exact withKey_congr (hkeep _ hm) k'
  refine ⟨s', _, hrun, ⟨hinv', fun k' => ?_, ?_, ?_, ?_, ?_⟩, hf⟩
  · rw [hkeys, hchain, withKey_append, withKey_append, blocksOf_append, blocksOf_append,
      blocksOf_withKey_pending, blocksOf_withKey_pending]
    split <;> simp
  · intro b hb
    have hne : b ≠ d := ne_of_mem_of_not_mem hb hdfree.1
    rw [hf.key, Function.update_of_ne hne]
    exact h.free b (List.mem_cons_of_mem d hb)
  · intro g hg
    rcases List.mem_append.mp hg with hg | hg
    · exact h.used g (List.mem_append_left _ hg)
    · rw [(mem_pending.mp hg).2]
      exact ⟨hk, by simp⟩
  · intro g hg b hb
    rw [hf.uptime]
    rcases List.mem_append.mp hg with hg | hg
    · have hne : b ≠ d :=
        ne_of_mem_of_not_mem (List.mem_flatMap.mpr ⟨g, hg, hb⟩) hdfree.2.1
      rw [if_neg hne]
      exact h.uptime g (List.mem_append_left _ hg) b hb
    · obtain rfl := (mem_pending.mp hg).2
      split
      · rfl
      · rename_i hne
        have hold : b ∈ blocks := by simpa [hne] using hb
        exact h.uptime ⟨k, now, blocks⟩
          (List.mem_append_right gs (mem_pending.mpr ⟨List.ne_nil_of_mem hold, rfl⟩)) b hold
  · rw [pending_concat, List.map_append, List.map_singleton]
    have hold : (gs.map Group.key).Nodup :=
      h.distinct.sublist ((List.sublist_append_left gs _).map Group.key)
    refine List.nodup_append.mpr ⟨hold, List.nodup_singleton k, ?_⟩
    intro a ha b hb
    obtain ⟨g, hg, rfl⟩ := List.mem_map.mp ha
    obtain rfl : b = k := by simpa using hb
    exact hnew g hg

theorem head_free {d : Nat} (h : s.Rep chain (d :: free) gs) : s.key s.m_lru_head = 0 := by
  have hhead : d = s.m_lru_head := by simpa using h.inv.lru.head
  exact hhead ▸ h.free d List.mem_cons_self

/-- Without a free block `Set` first deletes the least recently used key. -/
theorem put_evict (k : Nat) (now : Int) (chunk : Bytes) {g : Group} (h : s.Rep chain [] (g :: gs)) :
    ∃ s' chain', s.DeleteHash g.key = .ok s' ∧ s'.Rep chain' g.blocks.reverse gs ∧
      Freed s s' g.blocks ∧ Set.put s k now chunk = Set.put s' k now chunk := by
  have hne : ∀ g' ∈ gs, g'.key ≠ g.key := by
    intro g' hg' e
    exact (List.nodup_cons.mp h.distinct).1 (List.mem_map.mpr ⟨g', hg', e⟩)
  have hone : withKey Group.key g.key (g :: gs) = [g] :=
    withKey_eq_singleton h.distinct List.mem_cons_self rfl
  have hothers : withoutKey Group.key g.key (g :: gs) = gs := by
    rw [withoutKey, List.filter_cons_of_neg (by simp)]
    exact withoutKey_eq_self.mpr hne
  obtain ⟨s', hrun, hrep, hf⟩ := h.deleteHash g.key
  rw [hone, blocksOf_singleton] at hf
  rw [hone, hothers, blocksOf_singleton, List.append_nil] at hrep
  refine ⟨s', _, hrun, hrep, hf, ?_⟩
  obtain ⟨hg0, hgb⟩ := h.used g List.mem_cons_self
  have hkey : (s.m_block s.m_lru_head).m_key = g.key := by
    obtain ⟨b, bs, hb⟩ := List.exists_cons_of_ne_nil hgb
    have hhead : b = s.m_lru_head := by simpa [blocksOf, hb] using h.inv.lru.head
    exact hhead ▸ h.key List.mem_cons_self (by simp [hb])
  have hfree : s'.key s'.m_lru_head = 0 := by
    obtain ⟨b, bs, hb⟩ := List.exists_cons_of_ne_nil (mt List.reverse_eq_nil_iff.mp hgb)
    rw [hb] at hrep
    exact hrep.head_free
  have hfirst : Set.evict (s.m_block_num + 1) s = .ok s' := by
    rw [Set.evict.eq_def]
    simp only [hkey, hg0, if_false, hrun]
    exact Set.evict_of_free hfree _
  have hsecond := Set.evict_of_free hfree (s'.m_block_num + 1)
  simp only [Set.put, hfirst, hsecond]

end Rep

end CShmCache

end CommonCc
