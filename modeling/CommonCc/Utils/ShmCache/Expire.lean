import CommonCc.Utils.ShmCache.Lru

/-!
# Where `Check` leaves exactly the fresh keys

`Check` is exact in a reachable cache when no old value hides another one: an old value
of several blocks hides the old values with larger keys in its bucket.
-/

namespace CommonCc

namespace CShmCache

/-- A key that has a block. -/
def Stored (s : CShmCache) (k : Nat) : Prop := k ≠ 0 ∧ ∃ b < s.m_block_num, s.key b = k

/-- A key with a block whose time is not over. -/
def Fresh (s : CShmCache) (now : Int) (k : Nat) : Prop :=
  k ≠ 0 ∧ ∃ b < s.m_block_num, s.key b = k ∧ ¬ s.expired now b

/-- `Check` leaves the fresh keys with their values, and no others. -/
def ChecksExactly (s : CShmCache) (now : Int) : Prop :=
  ∃ s', s.Check now = .ok s' ∧
    ∀ k, (s'.Stored k ↔ s.Fresh now k) ∧ (s'.Stored k → s'.valueOf k = s.valueOf k)

/-- An old value that comes before another old one in a bucket has one block. -/
def NoneHidden (s : CShmCache) (now : Int) : Prop :=
  ∀ b < s.m_block_num, ∀ c < s.m_block_num, s.key b ≠ 0 → s.expired now b → s.expired now c →
    s.key b % HASH_MASK = s.key c % HASH_MASK → s.key b < s.key c →
      ∀ b' < s.m_block_num, s.key b' = s.key b → b' = b

section

variable {s s' : CShmCache} {chain chain' : Nat → List Nat} {free free' : List Nat}
  {gs gs' : List Group}

theorem Rep.group_of_key (h : s.Rep chain free gs) {b : Nat} (hb : b < s.m_block_num)
    (hk : s.key b ≠ 0) : ∃ g ∈ gs, b ∈ g.blocks ∧ g.key = s.key b := by
  have hm := mod_HASH_MASK_lt (s.key b)
  exact h.mem_group hm ((h.inv.hash.mem _ hm b).mpr ⟨hb, hk, rfl⟩)

theorem Rep.exists_block (h : s.Rep chain free gs) {g : Group} (hg : g ∈ gs) :
    ∃ b ∈ g.blocks, b < s.m_block_num ∧ s.key b = g.key := by
  obtain ⟨b, bs, hbs⟩ := List.exists_cons_of_ne_nil (h.used g hg).2
  have hb : b ∈ g.blocks := by simp [hbs]
  exact ⟨b, hb, h.block_lt hg hb, h.key hg hb⟩

theorem Rep.stored_iff (h : s.Rep chain free gs) (k : Nat) :
    s.Stored k ↔ ∃ g ∈ gs, g.key = k := by
  constructor
  · rintro ⟨hk, b, hb, rfl⟩
    obtain ⟨g, hg, -, hgk⟩ := h.group_of_key hb hk
    exact ⟨g, hg, hgk⟩
  · rintro ⟨g, hg, rfl⟩
    obtain ⟨b, -, hb, hbk⟩ := h.exists_block hg
    exact ⟨(h.used g hg).1, b, hb, hbk⟩

theorem Rep.fresh_iff (h : s.Rep chain free gs) (now : Int) (k : Nat) :
    s.Fresh now k ↔ ∃ g ∈ gs, g.key = k ∧ ¬ Group.Old s.m_timeout now g := by
  constructor
  · rintro ⟨hk, b, hb, rfl, hfresh⟩
    obtain ⟨g, hg, hgb, hgk⟩ := h.group_of_key hb hk
    exact ⟨g, hg, hgk, mt (h.expired_iff now hg hgb).mpr hfresh⟩
  · rintro ⟨g, hg, rfl, hfresh⟩
    obtain ⟨b, hgb, hb, hbk⟩ := h.exists_block hg
    exact ⟨(h.used g hg).1, b, hb, hbk, mt (h.expired_iff now hg hgb).mp hfresh⟩

theorem Rep.noneHidden_iff (h : s.Rep chain free gs) (now : Int) :
    s.NoneHidden now ↔ ∀ g ∈ gs, Group.Old s.m_timeout now g → Reached s.m_timeout now gs g := by
  constructor
  · intro hnone g hg hold
    refine ⟨hold, fun d hd hdold hbucket hlt => ?_⟩
    obtain ⟨c, hgc, hc, hck⟩ := h.exists_block hg
    obtain ⟨b, hdb, hb, hbk⟩ := h.exists_block hd
    have hall : ∀ b' ∈ d.blocks, b' = b := fun b' hb' =>
      hnone b hb c hc (hbk ▸ (h.used d hd).1) ((h.expired_iff now hd hdb).mpr hdold)
        ((h.expired_iff now hg hgc).mpr hold) (by rw [hbk, hck, hbucket]) (by rwa [hbk, hck])
        b' (h.block_lt hd hb') ((h.key hd hb').trans hbk.symm)
    have hnodup : d.blocks.Nodup := by
      have hblocks := (List.nodup_append.mp h.nodup).2.1
      exact (List.nodup_flatMap.mp hblocks).1 d hd
    have hle : d.blocks.length ≤ 1 := by
      have hsub : d.blocks ⊆ [b] := fun b' hb' => List.mem_singleton.mpr (hall b' hb')
      exact (hnodup.subperm hsub).length_le
    have hpos := List.length_pos_of_mem hdb
    omega
  · intro hall b hb c hc hk hbold hcold hbucket hlt b' hb' hb'k
    obtain ⟨d, hd, hdb, hdk⟩ := h.group_of_key hb hk
    obtain ⟨g, hg, hgc, hgk⟩ := h.group_of_key hc (Nat.ne_of_gt (Nat.zero_lt_of_lt hlt))
    obtain ⟨e, he, heb, hek⟩ := h.group_of_key hb' (hb'k ▸ hk)
    obtain rfl := h.group_unique he hd (by rw [hek, hdk, hb'k])
    have hone := (hall g hg ((h.expired_iff now hg hgc).mp hcold)).2 e he
      ((h.expired_iff now he hdb).mp hbold) (by rw [hdk, hgk, hbucket]) (by rwa [hdk, hgk])
    obtain ⟨a, ha⟩ := List.length_eq_one_iff.mp hone
    rw [ha, List.mem_singleton] at hdb heb
    rw [hdb, heb]

/-- The value of a key is what the blocks of its group hold. -/
theorem Rep.valueOf (h : s.Rep chain free gs) (k : Nat) :
    s.valueOf k = (blocksOf (withKey Group.key k gs)).flatMap s.contents := by
  have hm := mod_HASH_MASK_lt k
  rw [CShmCache.valueOf, (h.inv.hash.linked _ hm).follow (h.inv.hash.length_le hm), h.keyed]

theorem Rep.checksExactly_iff (h : s.Rep chain free gs) (now : Int) :
    s.ChecksExactly now ↔ s.NoneHidden now := by
  obtain ⟨s', chain', free', hrun, h', hkept⟩ := h.check now
  have hkeep : ∀ g, g ∈ gs.filter (fun g => ¬ Reached s.m_timeout now gs g) ↔
      g ∈ gs ∧ ¬ Reached s.m_timeout now gs g := by
    intro g
    simp [List.mem_filter]
  rw [h.noneHidden_iff]
  constructor
  · rintro ⟨s'', hrun', hexact⟩ g hg hold
    obtain rfl : s' = s'' := by
      rw [hrun] at hrun'
      exact Except.ok.inj hrun'
    by_contra hnot
    obtain ⟨d, hd, hdk, hfresh⟩ := (h.fresh_iff now g.key).mp ((hexact g.key).1.mp
      ((h'.stored_iff g.key).mpr ⟨g, (hkeep g).mpr ⟨hg, hnot⟩, rfl⟩))
    obtain rfl := h.group_unique hd hg hdk
    exact hfresh hold
  · intro hall
    refine ⟨s', hrun, fun k => ⟨?_, fun hstored => ?_⟩⟩
    · rw [h'.stored_iff, h.fresh_iff]
      constructor
      · rintro ⟨g, hg, hgk⟩
        obtain ⟨hg, hnot⟩ := (hkeep g).mp hg
        exact ⟨g, hg, hgk, fun hold => hnot (hall g hg hold)⟩
      · rintro ⟨g, hg, hgk, hfresh⟩
        exact ⟨g, (hkeep g).mpr ⟨hg, fun hreached => hfresh hreached.1⟩, hgk⟩
    · obtain ⟨g, hg, hgk⟩ := (h'.stored_iff k).mp hstored
      have hgs := ((hkeep g).mp hg).1
      have hsame : ∀ b ∈ g.blocks, s'.contents b = s.contents b := fun b hb =>
        hkept.contents b (List.mem_flatMap.mpr ⟨g, hg, hb⟩)
      rw [h'.valueOf, h.valueOf, withKey_eq_singleton h'.distinct hg hgk,
        withKey_eq_singleton h.distinct hgs hgk, blocksOf_singleton]
      exact List.flatMap_congr hsame

end

/-! ## Every reachable state -/

/-- After any calls on a fresh cache, `Check` leaves exactly the keys whose time is not over,
with their values, if and only if no old value is hidden. -/
theorem check_exact_iff (s : CShmCache) {block_num block_size : Nat} (timeout : Nat)
    (hn : 1 ≤ block_num) (hbs : 1 ≤ block_size) (hfit : LayoutFits block_num block_size)
    (calls : List CacheCall) (now : Int) :
    ∃ answers s', runCalls CShmCache.call (s.Init block_num block_size timeout) calls =
        .ok (answers, s') ∧
      (s'.ChecksExactly now ↔ s'.NoneHidden now) := by
  obtain ⟨answers, s', hrun, t, h⟩ := run_holds s timeout (Nat.ne_of_gt hn) (Nat.ne_of_gt hbs)
    hfit calls
  obtain ⟨chain, free, gs, hrep, -, -⟩ := h.rep
  exact ⟨answers, s', hrun, hrep.checksExactly_iff now⟩

theorem check_exact_iff_three :
    ∃ answers s', runCalls CShmCache.call (fresh.Init 3 2 60)
        [.set 0 5 [1, 2, 3], .set 50 65541 [9]] = .ok (answers, s') ∧
      (s'.ChecksExactly 100 ↔ s'.NoneHidden 100) := by
  have hfit : LayoutFits 3 2 := by
    unfold LayoutFits HASH_MASK
    omega
  exact check_exact_iff fresh 60 (by decide) (by decide) hfit _ 100

/-- A value of two blocks hides the one behind it in its bucket. -/
theorem old_key_stays :
    ∃ answers s', runCalls CShmCache.call (fresh.Init 3 1 60)
        [.set 0 5 [1, 2], .set 0 65541 [9]] = .ok (answers, s') ∧ ¬ s'.ChecksExactly 100 := by
  have hfit : LayoutFits 3 1 := by
    unfold LayoutFits HASH_MASK
    omega
  have hblocks : (runCalls CShmCache.call (fresh.Init 3 1 60)
      [.set 0 5 [1, 2], .set 0 65541 [9]]).toOption.map (fun r => (r.2.m_block_num,
        r.2.m_timeout, [0, 1, 2].map fun b => ((r.2.m_block b).m_key, (r.2.m_block b).m_uptime))) =
      some (3, 60, [(5, 0), (5, 0), (65541, 0)]) := by decide +kernel
  obtain ⟨answers, s', hrun, t, h⟩ := run_holds fresh 60 (by decide) (by decide) hfit
    [.set 0 5 [1, 2], .set 0 65541 [9]]
  obtain ⟨chain, free, gs, hrep, -, -⟩ := h.rep
  rw [hrun] at hblocks
  simp only [Except.toOption, Option.map_some, Option.some.injEq, Prod.mk.injEq, List.map_cons,
    List.map_nil, List.cons.injEq, and_true] at hblocks
  obtain ⟨hnum, htime, ⟨hk0, ht0⟩, ⟨hk1, -⟩, hk2, ht2⟩ := hblocks
  refine ⟨answers, s', hrun, fun hexact => ?_⟩
  have hone := (hrep.checksExactly_iff 100).mp hexact 0 (by omega) 2 (by omega)
  simp only [CShmCache.key, expired, hk0, hk2, ht0, ht2, htime] at hone
  have hsame := hone (by decide) (by decide) (by decide) (by decide) (by decide) 1 (by omega) hk1
  exact absurd hsame (by decide)

end CShmCache

end CommonCc
