import CommonCc.Utils.ShmCache.Insert

/-!
# Reading a key

The loop of `Get` copies the blocks of a key in chain order and makes each the most
recent one, so that they end up together at the LRU tail.
-/

namespace CommonCc

namespace CShmCache

/-- The bytes that a block holds. -/
def contents (s : CShmCache) (b : Nat) : Bytes :=
  s.m_data_buffer.read (b * s.m_block_size) (s.m_block b).m_len

/-- `Get` gives a key up when `now` is too far from the time of its block. -/
def expired (s : CShmCache) (now : Int) (b : Nat) : Prop :=
  now - (s.m_block b).m_uptime > s.m_timeout

theorem Inv.moveTail {s : CShmCache} {xs ys : List Nat} {chain : Nat → List Nat} {d : Nat}
    (h : s.Inv (xs ++ d :: ys) chain) :
    (s.MoveLRUTail d).Inv (xs ++ ys ++ [d]) chain ∧ LruMoved s (s.MoveLRUTail d) := by
  obtain ⟨hlru, hm⟩ := h.lru.moveTail
  refine ⟨⟨hlru, ?_, h.hash.of_moved hm, ?_, ?_, ?_, ?_⟩, hm⟩
  · rw [hm.block_num]
    refine List.Perm.trans ?_ h.perm
    rw [List.append_assoc]
    exact (List.perm_append_singleton d ys).append_left xs
  · intro b hb
    rw [hm.idx]
    exact h.idx b (by rwa [hm.block_num] at hb)
  · intro b hb
    rw [hm.len, hm.block_size]
    exact h.len b (by rwa [hm.block_num] at hb)
  · rw [hm.block_num, hm.block_size]
    exact h.layout
  · rw [hm.data, hm.block_num, hm.block_size]
    exact h.size

/-- The loop of `Get` passes the blocks of lower keys. -/
theorem Get.loop_skip {s : CShmCache} {k : Nat} {as rest : List Nat} (fuel : Nat) (now iRet : Int)
    (out : Bytes) (h : Linked s.hashNext (as ++ rest).head? (as ++ rest))
    (has : ∀ a ∈ as, s.key a < k) :
    Get.loop k now (as.length + fuel) (as ++ rest).head? iRet out s =
      Get.loop k now fuel rest.head? iRet out s := by
  induction as with
  | nil => simp
  | cons a as ih =>
      obtain ⟨hlt, has⟩ := List.forall_mem_cons.mp has
      have hkey : (s.m_block a).m_key < k := hlt
      have hnext : (s.m_block a).m_next = (as ++ rest).head? := h.2.head
      rw [← ih h.2.from_head has, List.length_cons, Nat.add_right_comm, List.cons_append,
        List.head?_cons, Get.loop]
      simp only [hkey.ne, if_false, gt_iff_lt, Nat.not_lt.mpr hkey.le, hnext]

/-- The loop of `Get` copies the blocks of its key and stops behind them. -/
theorem Inv.get_walk {s : CShmCache} {k fuel : Nat} {now : Int} (iRet : Int) (out : Bytes)
    {xs ys as ds bs : List Nat} {chain : Nat → List Nat} (h : s.Inv (xs ++ ds ++ ys) chain)
    (hsplit : chain (k % HASH_MASK) = as ++ ds ++ bs) (hds : ∀ d ∈ ds, s.key d = k)
    (hbs : ∀ b ∈ bs, k < s.key b) (hfresh : ∀ d ∈ ds, ¬ s.expired now d) (hfuel : 0 < fuel) :
    ∃ s', Get.loop k now (ds.length + fuel) (ds ++ bs).head? iRet out s =
        .ok ((if ds = [] then iRet else ERR_OK, out ++ ds.flatMap s.contents), s') ∧
      s'.Inv (xs ++ ys ++ ds) chain ∧ LruMoved s s' := by
  have hm := mod_HASH_MASK_lt k
  induction ds generalizing s ys as iRet out with
  | nil =>
      obtain ⟨fuel, rfl⟩ := Nat.exists_eq_succ_of_ne_zero hfuel.ne'
      refine ⟨s, ?_, by simpa using h, .refl s⟩
      cases bs with
      | nil => simp [Get.loop]
      | cons b bs =>
          have hgt : k < (s.m_block b).m_key := hbs b List.mem_cons_self
          simp [Get.loop, hgt.ne', hgt]
  | cons d ds ih =>
      obtain ⟨hd, hds⟩ := List.forall_mem_cons.mp hds
      obtain ⟨hnow, hfresh⟩ := List.forall_mem_cons.mp hfresh
      have hlinked := h.hash.linked _ hm
      rw [List.append_assoc, List.cons_append] at hsplit
      rw [hsplit] at hlinked
      have hnext : (s.m_block d).m_next = (ds ++ bs).head? := hlinked.next_eq
      have hdn : d < s.m_block_num :=
        List.mem_range.mp (h.perm.mem_iff.mp (by simp))
      have hbound := h.offset_le hdn (h.len d hdn)
      have hload := s.m_data_buffer.load_eq_some hbound.1
      rw [List.append_assoc, List.cons_append] at h
      obtain ⟨h₁, hm₁⟩ := h.moveTail
      rw [← List.append_assoc xs, List.append_assoc (xs ++ ds)] at h₁
      have hcontents : (s.MoveLRUTail d).contents = s.contents := by
        funext b
        rw [contents, hm₁.data, hm₁.block_size, hm₁.len]
        rfl
      have hsplit₁ : chain (k % HASH_MASK) = as ++ [d] ++ ds ++ bs := by simp [hsplit]
      obtain ⟨s', hrun, hinv, hm'⟩ := ih ERR_OK (out ++ s.contents d) h₁ hsplit₁
        (fun a ha => (hm₁.key a).trans (hds a ha))
        (fun b hb => by
          have hkey := hm₁.key b
          simp only [key] at hbs ⊢
          rw [hkey]
          exact hbs b hb)
        (fun a ha => by
          have := hfresh a ha
          rwa [expired, hm₁.uptime, hm₁.timeout])
      refine ⟨s', ?_, ?_, hm₁.trans hm'⟩
      · have hdk : (s.m_block d).m_key = k := hd
        have hnow' : ¬ (now - (s.m_block d).m_uptime > s.m_timeout) := hnow
        rw [hcontents] at hrun
        rw [List.length_cons, Nat.add_right_comm, List.cons_append, List.head?_cons, Get.loop]
        simp only [hdk, if_true, hnow', if_false, h.idx d hdn, u32_of_lt hbound.2, hload,
          hm₁.next, hnext]
        rw [contents] at hrun
        rw [hrun]
        simp [List.flatMap_cons, contents]
      · simpa using hinv

/-- The part of the chain that `Get` walks before the blocks of its key. -/
theorem Inv.get_start {s : CShmCache} {k : Nat} {order ds : List Nat}
    {chain : Nat → List Nat} (h : s.Inv order chain) (now : Int)
    (hds : withKey s.key k (chain (k % HASH_MASK)) = ds) :
    ∃ as bs fuel, chain (k % HASH_MASK) = as ++ ds ++ bs ∧ (∀ b ∈ bs, k < s.key b) ∧ 0 < fuel ∧
      Get.loop k now (s.m_block_num + 1) (s.m_hash (k % HASH_MASK)).m_head ERR_KEY_NO_EXIST [] s =
        Get.loop k now (ds.length + fuel) (ds ++ bs).head? ERR_KEY_NO_EXIST [] s := by
  have hm := mod_HASH_MASK_lt k
  obtain ⟨as, bs, hsplit, has, hbs⟩ := (h.hash.sorted _ hm).split k
  have hlinked := h.hash.linked _ hm
  have hlen := h.hash.length_le hm
  rw [hds] at hsplit
  rw [hsplit, List.append_assoc] at hlinked
  rw [hsplit, List.length_append, List.length_append] at hlen
  refine ⟨as, bs, s.m_block_num + 1 - as.length - ds.length, hsplit, hbs, by omega, ?_⟩
  have hskip := Get.loop_skip (ds.length + (s.m_block_num + 1 - as.length - ds.length)) now
    ERR_KEY_NO_EXIST [] hlinked.from_head has
  have hfuel : as.length + (ds.length + (s.m_block_num + 1 - as.length - ds.length)) =
      s.m_block_num + 1 := by omega
  rwa [hfuel, ← hlinked.head] at hskip

/-- `Get` of a key whose blocks are fresh. -/
theorem Inv.get_fresh {s : CShmCache} {k : Nat} {now : Int} {xs ys ds : List Nat}
    {chain : Nat → List Nat} (h : s.Inv (xs ++ ds ++ ys) chain)
    (hds : withKey s.key k (chain (k % HASH_MASK)) = ds)
    (hfresh : ∀ d ∈ ds, ¬ s.expired now d) :
    ∃ s', Get.loop k now (s.m_block_num + 1) (s.m_hash (k % HASH_MASK)).m_head
        ERR_KEY_NO_EXIST [] s =
          .ok ((if ds = [] then ERR_KEY_NO_EXIST else ERR_OK, ds.flatMap s.contents), s') ∧
      s'.Inv (xs ++ ys ++ ds) chain ∧ LruMoved s s' := by
  obtain ⟨as, bs, fuel, hsplit, hbs, hfuel, hstart⟩ := h.get_start now hds
  have hall : ∀ d ∈ ds, s.key d = k := by
    intro d hd
    rw [← hds] at hd
    exact (mem_withKey.mp hd).2
  rw [hstart]
  exact h.get_walk ERR_KEY_NO_EXIST [] hsplit hall hbs hfresh hfuel

/-- `Get` of a key whose first block is too old. -/
theorem Inv.get_expired {s : CShmCache} {k d : Nat} {now : Int} {xs ys ds : List Nat}
    {chain : Nat → List Nat} (h : s.Inv (xs ++ (d :: ds) ++ ys) chain)
    (hds : withKey s.key k (chain (k % HASH_MASK)) = d :: ds)
    (hold : s.expired now d) :
    Get.loop k now (s.m_block_num + 1) (s.m_hash (k % HASH_MASK)).m_head
        ERR_KEY_NO_EXIST [] s =
      (s.DeleteHash k).map fun s' => ((ERR_KEY_TIMEOUT, []), s') := by
  obtain ⟨as, bs, fuel, hsplit, hbs, hfuel, hstart⟩ := h.get_start now hds
  have hd : d ∈ withKey s.key k (chain (k % HASH_MASK)) := by
    rw [hds]
    exact List.mem_cons_self
  have hdk : s.key d = k := (mem_withKey.mp hd).2
  have hkey : (s.m_block d).m_key = k := hdk
  have hold' : now - (s.m_block d).m_uptime > s.m_timeout := hold
  rw [hstart, List.length_cons, Nat.add_right_comm, List.cons_append, List.head?_cons, Get.loop]
  simp only [hkey, if_true, hold']
  cases s.DeleteHash k <;> rfl

end CShmCache

end CommonCc
