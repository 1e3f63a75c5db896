import CommonCc.Utils.ShmCache.Expire
import Mathlib.Algebra.BigOperators.Group.List.Basic
import Mathlib.Algebra.Order.BigOperators.Group.List

/-!
# The statistics

`GetStat` adds up the counters of the buckets and walks along every chain.  It counts a
key wherever the key of a block differs from that of the block before it.
-/

namespace CommonCc

structure SCacheStat where
  m_block_num : Nat
  m_block_size : Nat
  m_total_size : Nat
  m_use_size : Nat
  m_use_block : Nat
  m_has_key : Nat
  m_total_req : Nat
  m_total_hit : Nat
deriving Repr, DecidableEq

namespace SCacheStat

/-- Statistics with `size` more bytes, `blocks` more blocks and `keys` more keys. -/
def add (stat : SCacheStat) (size blocks keys : Nat) : SCacheStat :=
  { stat with
    m_use_size := u32 (stat.m_use_size + size)
    m_use_block := u32 (stat.m_use_block + blocks)
    m_has_key := u32 (stat.m_has_key + keys) }

theorem u32_add_u32 (a b c : Nat) : u32 (u32 (a + b) + c) = u32 (a + (b + c)) := by
  unfold u32
  omega

end SCacheStat

namespace CShmCache

/-- The loop of `GetStat` along one chain. -/
def GetStat.walk (s : CShmCache) :
    Nat → Option Nat → (pre_key : Nat) → SCacheStat → Except Fault SCacheStat
  | _, none, _, stat => .ok stat
  | 0, some _, _, _ => .error .diverges
  | fuel + 1, some cur, pre_key, stat =>
      let block := s.m_block cur
      let stat := { stat with m_use_size := u32 (stat.m_use_size + block.m_len) }
      let stat :=
        if pre_key ≠ block.m_key then { stat with m_has_key := u32 (stat.m_has_key + 1) }
        else stat
      GetStat.walk s fuel block.m_next block.m_key stat

/-- One turn of the loop of `GetStat` over the buckets. -/
def GetStat.bucket (s : CShmCache) (stat : SCacheStat) (i : Nat) : Except Fault SCacheStat :=
  let head := s.m_hash i
  if head.m_len = 0 then .ok stat
  else
    GetStat.walk s (s.m_block_num + 1) head.m_head 0
      { stat with m_use_block := u32 (stat.m_use_block + head.m_len) }

/-- The counters of requests start over. -/
def GetStat (s : CShmCache) : Except Fault (SCacheStat × CShmCache) := do
  let stat ← (List.range HASH_MASK).foldlM (GetStat.bucket s)
    { m_block_num := s.m_block_num
      m_block_size := s.m_block_size
      m_total_size := u32 (s.m_block_num * s.m_block_size)
      m_use_size := 0
      m_use_block := 0
      m_has_key := 0
      m_total_req := s.m_total_req
      m_total_hit := s.m_total_hit }
  return (stat, { s with m_total_req := 0, m_total_hit := 0 })

/-! ## The loops as sums -/

section Loops

variable {s : CShmCache} {stat : SCacheStat} {size blocks keys : Nat} {chain : List Nat}

theorem walk_some (fuel b pre_key : Nat) :
    GetStat.walk s (fuel + 1) (some b) pre_key (stat.add size blocks keys) =
      GetStat.walk s fuel (s.hashNext b) (s.key b) (stat.add (size + (s.m_block b).m_len) blocks
        (keys + if pre_key ≠ s.key b then 1 else 0)) := by
  rw [GetStat.walk]
  by_cases hkey : pre_key ≠ (s.m_block b).m_key
  · have hcount : (if pre_key ≠ s.key b then 1 else 0) = 1 := if_pos hkey
    rw [hcount]
    simp only [if_pos hkey, SCacheStat.add, SCacheStat.u32_add_u32]
    rfl
  · have hcount : (if pre_key ≠ s.key b then 1 else 0) = 0 := if_neg hkey
    rw [hcount]
    simp only [if_neg hkey, SCacheStat.add, SCacheStat.u32_add_u32]
    rfl

/-- A walk adds up the sizes of a chain and counts the changes of its keys. -/
theorem walk_stat {fuel : Nat} {cur : Option Nat} (h : Linked s.hashNext cur chain)
    (hfuel : chain.length ≤ fuel) (pre_key : Nat) :
    GetStat.walk s fuel cur pre_key (stat.add size blocks keys) =
      .ok (stat.add (size + (chain.map fun b => (s.m_block b).m_len).sum) blocks
        (keys + (changes pre_key (chain.map s.key)).length)) := by
  induction chain generalizing fuel cur pre_key size keys with
  | nil =>
      obtain rfl : cur = none := h
      cases fuel <;> rfl
  | cons b bs ih =>
      cases fuel with
      | zero => simp at hfuel
      | succ fuel =>
          obtain ⟨rfl, hrest⟩ := h
          rw [walk_some, ih hrest (Nat.le_of_succ_le_succ hfuel), List.map_cons, List.sum_cons,
            List.map_cons, Nat.add_assoc size, Nat.add_assoc keys]
          by_cases hkey : pre_key = s.key b
          · rw [hkey, changes_cons_self, if_neg (not_not.mpr rfl), Nat.zero_add]
          · rw [changes_cons_of_ne hkey, if_pos hkey, List.length_cons, Nat.add_comm 1]

theorem bucket_stat {chain : Nat → List Nat} (h : s.InHash chain) {i : Nat} (hi : i < HASH_MASK) :
    GetStat.bucket s (stat.add size blocks keys) i =
      .ok (stat.add (size + ((chain i).map fun b => (s.m_block b).m_len).sum)
        (blocks + (chain i).length) (keys + (changes 0 ((chain i).map s.key)).length)) := by
  have hcount := h.count i hi
  have hlinked := h.linked i hi
  have hfuel := Nat.le_succ_of_le (h.length_le hi)
  unfold GetStat.bucket
  by_cases hlen : (s.m_hash i).m_len = 0
  · have hnil : chain i = [] := List.length_eq_zero_iff.mp (hcount ▸ hlen)
    simp only [if_pos hlen, hnil]
    rfl
  · have hwalk := @walk_stat s stat size (blocks + (chain i).length) keys _ _ _ hlinked hfuel 0
    rw [← hwalk, ← hcount]
    simp only [if_neg hlen, SCacheStat.add, SCacheStat.u32_add_u32]

/-- The loop over the buckets adds up all chains. -/
theorem buckets_stat {chain : Nat → List Nat} (h : s.InHash chain) {buckets : List Nat}
    (hlt : ∀ i ∈ buckets, i < HASH_MASK) :
    buckets.foldlM (GetStat.bucket s) (stat.add size blocks keys) =
      .ok (stat.add (size + ((buckets.flatMap chain).map fun b => (s.m_block b).m_len).sum)
        (blocks + (buckets.flatMap chain).length)
        (keys + (buckets.flatMap fun i => changes 0 ((chain i).map s.key)).length)) := by
  induction buckets generalizing size blocks keys with
  | nil => rfl
  | cons i buckets ih =>
      obtain ⟨hi, hlt⟩ := List.forall_mem_cons.mp hlt
      rw [List.foldlM_cons, bucket_stat h hi]
      refine (ih hlt).trans ?_
      simp only [List.flatMap_cons, List.map_append, List.sum_append, List.length_append,
        Nat.add_assoc]

end Loops

/-! ## The sums over all buckets -/

section Sums

variable {s : CShmCache} {chain : Nat → List Nat} {free : List Nat} {gs : List Group}

/-- The chains hold the blocks of the stored keys. -/
theorem Rep.chains_perm (h : s.Rep chain free gs) :
    ((List.range HASH_MASK).flatMap chain).Perm (blocksOf gs) := by
  have hlt : ∀ i ∈ List.range HASH_MASK, i < HASH_MASK := fun i => List.mem_range.mp
  have hnodup : ((List.range HASH_MASK).flatMap chain).Nodup := by
    rw [List.nodup_flatMap]
    refine ⟨fun i hi => h.inv.hash.nodup i (hlt i hi), ?_⟩
    refine List.Pairwise.imp_of_mem (fun hi hj hij => ?_) List.nodup_range
    intro b hbi hbj
    exact h.inv.hash.ne_of_mem (hlt _ hi) (hlt _ hj) hij hbi hbj rfl
  refine (List.perm_ext_iff_of_nodup hnodup (List.nodup_append.mp h.nodup).2.1).mpr fun b => ?_
  constructor
  · intro hb
    obtain ⟨i, hi, hb⟩ := List.mem_flatMap.mp hb
    obtain ⟨g, hg, hgb, -⟩ := h.mem_group (hlt i hi) hb
    exact List.mem_flatMap.mpr ⟨g, hg, hgb⟩
  · intro hb
    obtain ⟨g, hg, hgb⟩ := List.mem_flatMap.mp hb
    have hm := mod_HASH_MASK_lt (s.key b)
    have hne : s.key b ≠ 0 := h.key hg hgb ▸ (h.used g hg).1
    exact List.mem_flatMap.mpr ⟨s.key b % HASH_MASK, List.mem_range.mpr hm,
      (h.inv.hash.mem _ hm b).mpr ⟨h.block_lt hg hgb, hne, rfl⟩⟩

/-- The changes along a chain are its keys, once each. -/
theorem Rep.changes_chain (h : s.Rep chain free gs) {i : Nat} (hi : i < HASH_MASK) :
    (changes 0 ((chain i).map s.key)).Nodup ∧
      ∀ k, k ∈ changes 0 ((chain i).map s.key) ↔ ∃ b ∈ chain i, s.key b = k := by
  have hpos : ∀ k ∈ (chain i).map s.key, 0 < k := by
    intro k hk
    obtain ⟨b, hb, rfl⟩ := List.mem_map.mp hk
    exact Nat.pos_of_ne_zero ((h.inv.hash.mem i hi b).mp hb).2.1
  have hsorted : (0 :: (chain i).map s.key).Pairwise (· ≤ ·) :=
    List.pairwise_cons.mpr ⟨fun _ _ => Nat.zero_le _,
      List.pairwise_map.mpr (h.inv.hash.sorted i hi)⟩
  have hstrict := List.pairwise_cons.mp (changes_sorted hsorted)
  refine ⟨hstrict.2.imp fun hlt => Nat.ne_of_lt hlt, fun k => ?_⟩
  have hmem := @mem_changes _ _ 0 k ((chain i).map s.key)
  rw [List.mem_cons, List.mem_cons] at hmem
  rw [← List.mem_map]
  constructor
  · intro hk
    cases hmem.mp (.inr hk) with
    | inl hzero => exact absurd hzero (Nat.ne_of_gt (hstrict.1 k hk))
    | inr hk => exact hk
  · intro hk
    cases hmem.mpr (.inr hk) with
    | inl hzero => exact absurd hzero (Nat.ne_of_gt (hpos k hk))
    | inr hk => exact hk

/-- The changes along all chains are the stored keys. -/
theorem Rep.changes_perm (h : s.Rep chain free gs) :
    ((List.range HASH_MASK).flatMap fun i => changes 0 ((chain i).map s.key)).Perm
      (gs.map Group.key) := by
  have hlt : ∀ i ∈ List.range HASH_MASK, i < HASH_MASK := fun i => List.mem_range.mp
  have hbucket : ∀ i < HASH_MASK, ∀ k ∈ changes 0 ((chain i).map s.key), k % HASH_MASK = i := by
    intro i hi k hk
    obtain ⟨b, hb, rfl⟩ := ((h.changes_chain hi).2 k).mp hk
    exact ((h.inv.hash.mem i hi b).mp hb).2.2
  have hnodup : ((List.range HASH_MASK).flatMap
      fun i => changes 0 ((chain i).map s.key)).Nodup := by
    rw [List.nodup_flatMap]
    refine ⟨fun i hi => (h.changes_chain (hlt i hi)).1, ?_⟩
    refine List.Pairwise.imp_of_mem (fun hi hj hij => ?_) List.nodup_range
    intro k hki hkj
    exact hij ((hbucket _ (hlt _ hi) k hki).symm.trans (hbucket _ (hlt _ hj) k hkj))
  refine (List.perm_ext_iff_of_nodup hnodup h.distinct).mpr fun k => ?_
  rw [List.mem_map, List.mem_flatMap]
  constructor
  · rintro ⟨i, hi, hk⟩
    obtain ⟨b, hb, rfl⟩ := ((h.changes_chain (hlt i hi)).2 k).mp hk
    obtain ⟨g, hg, -, hgk⟩ := h.mem_group (hlt i hi) hb
    exact ⟨g, hg, hgk⟩
  · rintro ⟨g, hg, rfl⟩
    obtain ⟨b, hgb, hb, hbk⟩ := h.exists_block hg
    have hm := mod_HASH_MASK_lt g.key
    have hchain := (h.changes_chain hm).2 g.key
    refine ⟨g.key % HASH_MASK, List.mem_range.mpr hm, hchain.mpr ⟨b, ?_, hbk⟩⟩
    exact (h.inv.hash.mem _ hm b).mpr ⟨hb, hbk ▸ (h.used g hg).1, by rw [hbk]⟩

/-- The groups fit into the blocks. -/
theorem Rep.bounds (h : s.Rep chain free gs) :
    free.length + (blocksOf gs).length = s.m_block_num ∧ gs.length ≤ (blocksOf gs).length ∧
      ((blocksOf gs).map fun b => (s.m_block b).m_len).sum ≤
        (blocksOf gs).length * s.m_block_size := by
  have hlen := h.inv.perm.length_eq
  rw [List.length_append, List.length_range] at hlen
  refine ⟨hlen, ?_, ?_⟩
  · rw [blocksOf, List.length_flatMap, ← @List.length_map _ _ gs fun g => g.blocks.length]
    refine List.length_le_sum_of_one_le _ fun n hn => ?_
    obtain ⟨g, hg, rfl⟩ := List.mem_map.mp hn
    exact List.length_pos_iff.mpr (h.used g hg).2
  · have hle := List.sum_le_card_nsmul ((blocksOf gs).map fun b => (s.m_block b).m_len)
      s.m_block_size fun n hn => ?_
    · rwa [List.length_map] at hle
    · obtain ⟨b, hb, rfl⟩ := List.mem_map.mp hn
      obtain ⟨g, hg, hgb⟩ := List.mem_flatMap.mp hb
      exact h.inv.len b (h.block_lt hg hgb)

/-- What `GetStat` reports of the stored groups. -/
theorem Rep.getStat (h : s.Rep chain free gs) :
    ∃ stat s', s.GetStat = .ok (stat, s') ∧ stat.m_has_key = gs.length ∧
      stat.m_use_block = (blocksOf gs).length ∧
      stat.m_use_size = ((blocksOf gs).flatMap s.contents).length := by
  have hlt : ∀ i ∈ List.range HASH_MASK, i < HASH_MASK := fun i => List.mem_range.mp
  have hblocks := h.chains_perm
  have hkeys := h.changes_perm.length_eq
  rw [List.length_map] at hkeys
  have hsize : ((blocksOf gs).flatMap s.contents).length =
      ((blocksOf gs).map fun b => (s.m_block b).m_len).sum := by
    rw [List.length_flatMap]
    simp only [contents, Memory.read_length]
  obtain ⟨hnum, hgroups, hsum⟩ := h.bounds
  have hfit := h.inv.layout
  unfold LayoutFits at hfit
  have hle : (blocksOf gs).length * s.m_block_size ≤ s.m_block_num * s.m_block_size :=
    Nat.mul_le_mul_right _ (by omega)
  let start : SCacheStat := ⟨s.m_block_num, s.m_block_size, u32 (s.m_block_num * s.m_block_size),
    0, 0, 0, s.m_total_req, s.m_total_hit⟩
  have hloop := @buckets_stat s start 0 0 0 _ h.inv.hash _ hlt
  rw [Nat.zero_add, Nat.zero_add, Nat.zero_add, hkeys, hblocks.length_eq,
    (hblocks.map fun b => (s.m_block b).m_len).sum_nat] at hloop
  have hrun : s.GetStat = .ok (start.add ((blocksOf gs).map fun b => (s.m_block b).m_len).sum
      (blocksOf gs).length gs.length, { s with m_total_req := 0, m_total_hit := 0 }) := by
    have hstart : start.add 0 0 0 = start := rfl
    rw [hstart] at hloop
    rw [GetStat, hloop]
    rfl
  refine ⟨_, _, hrun, ?_, ?_, ?_⟩
  · exact (congrArg u32 (Nat.zero_add _)).trans (u32_of_lt (by omega))
  · exact (congrArg u32 (Nat.zero_add _)).trans (u32_of_lt (by omega))
  · rw [hsize]
    exact (congrArg u32 (Nat.zero_add _)).trans (u32_of_lt (by omega))

end Sums

/-! ## The stored values and their calls -/

/-- The value of `k` after a call, when it was `last` before. -/
def valueAfter (k : Nat) (last : Option Bytes) : CacheCall → Option Bytes
  | .set _ key data => if key = k then some data else last
  | .get _ _ => last
  | .del _ => last
  | .check _ => last

/-- The value of the last `Set` for a key. -/
def lastSet (calls : List CacheCall) (k : Nat) : Option Bytes := calls.foldl (valueAfter k) none

theorem lastSet_concat (calls : List CacheCall) (c : CacheCall) (k : Nat) :
    lastSet (calls ++ [c]) k = valueAfter k (lastSet calls k) c := by
  simp [lastSet]

/-- A value that `Set` gets is not empty and not larger than the cache. -/
def Storable (block_num block_size : Nat) : CacheCall → Prop
  | .set _ _ data => 1 ≤ data.length ∧ data.length ≤ block_num * block_size
  | .get _ _ => True
  | .del _ => True
  | .check _ => True

section Values

variable {block_num block_size timeout : Nat} {s : CShmCache} {es : List LruEntry}

/-- What a call of the map leaves was there before, or is the value of this call. -/
theorem valueAfter_call {c : CacheCall} {e : LruEntry} {last : Option Bytes}
    (he : e ∈ (Lru.call block_num block_size timeout es c).2)
    (hold : e ∈ es → last = some e.value) : valueAfter e.key last c = some e.value := by
  cases c with
  | set now key v =>
      cases List.mem_append.mp he with
      | inl he =>
          obtain ⟨old, hsplit⟩ := Lru.evict_suffix block_num block_size
            (pieceCount block_size v.length) (withoutKey LruEntry.key key es)
          have hmem : e ∈ withoutKey LruEntry.key key es := by
            rw [hsplit]
            exact List.mem_append_right old he
          have hkept := mem_withoutKey.mp hmem
          rw [valueAfter, if_neg (Ne.symm hkept.2), hold hkept.1]
      | inr he =>
          rw [List.mem_singleton.mp he]
          exact if_pos rfl
  | get now key =>
      refine hold ?_
      change e ∈ (Lru.get timeout es now key).2 at he
      unfold Lru.get at he
      split at he
      · exact he
      · split at he
        · exact (mem_withoutKey.mp he).1
        · cases List.mem_append.mp he with
          | inl he => exact (mem_withoutKey.mp he).1
          | inr he => exact (mem_withKey.mp he).1
  | del key => exact hold (mem_withoutKey.mp he).1
  | check now => exact hold (List.mem_filter.mp he).1

theorem Stores.key_ne_zero (h : Stores block_num block_size timeout s es) {e : LruEntry}
    (he : e ∈ es) : e.key ≠ 0 := by
  obtain ⟨chain, free, gs, hrep, -, hentries⟩ := h.holds.rep
  have hmem : Lru.cut block_size e ∈ gs.map s.entryOf := by
    rw [hentries]
    exact List.mem_map_of_mem he
  obtain ⟨g, hg, hge⟩ := List.mem_map.mp hmem
  have hkey : g.key = e.key := congrArg Entry.key hge
  exact hkey ▸ (hrep.used g hg).1

/-- `Check` leaves a part of the values. -/
theorem Stores.check (h : Stores block_num block_size timeout s es) (hbs : block_size ≠ 0)
    (now : Int) :
    ∃ s' es', s.Check now = .ok s' ∧ Stores block_num block_size timeout s' es' ∧
      es'.Sublist es := by
  obtain ⟨chain, free, gs, hrep, hfree, hentries⟩ := h.holds.rep
  obtain ⟨s', chain', free', hrun, hrep', hkept⟩ := hrep.check now
  have hholds := hrep'.holds (hkept.block_num.trans h.holds.num)
    (hkept.block_size.trans h.holds.size) (hkept.timeout.trans h.holds.time)
  have htotal := hholds.total.1
  rw [entryOf_congr hkept.contents] at hholds htotal
  have hsub := (List.filter_sublist (l := gs)
    (p := fun g => ¬ Reached s.m_timeout now gs g)).map s.entryOf
  rw [hentries] at hsub
  obtain ⟨es', hes', heq⟩ := List.sublist_map_iff.mp hsub
  rw [heq] at hholds htotal
  dsimp only at htotal
  rw [Lru.load_cut hbs] at htotal
  have hfree' : free'.length = block_num - Lru.load block_size es' := by omega
  rw [hfree'] at hholds
  refine ⟨s', es', hrun, ⟨hholds, ?_, by omega, fun e he => ?_⟩, hes'⟩
  · exact h.valid.distinct.sublist (hes'.map LruEntry.key)
  · exact h.valid.value_ne e (hes'.subset he)

/-- The cache stores values that are those of the last `Set` of their keys. -/
def Recorded (block_num block_size timeout : Nat) (s : CShmCache) (calls : List CacheCall) :
    Prop :=
  ∃ es, Stores block_num block_size timeout s es ∧ ∀ e ∈ es, lastSet calls e.key = some e.value

theorem Recorded.call (hbs : block_size ≠ 0) {calls : List CacheCall} {c : CacheCall}
    (h : Recorded block_num block_size timeout s calls) (hc : Storable block_num block_size c) :
    ∃ answer s', s.call c = .ok (answer, s') ∧
      Recorded block_num block_size timeout s' (calls ++ [c]) := by
  obtain ⟨es, hs, hlast⟩ := h
  have hrefine : Lru.Admissible block_num block_size c → ∃ answer s',
      s.call c = .ok (answer, s') ∧ Recorded block_num block_size timeout s' (calls ++ [c]) := by
    intro hadm
    obtain ⟨s', hrun, hs'⟩ := call_refines hbs s es c hs hadm
    refine ⟨_, s', hrun, _, hs', fun e he => ?_⟩
    rw [lastSet_concat]
    exact valueAfter_call he fun hold => hlast e hold
  cases c with
  | set now key data =>
      by_cases hkey : key = 0
      · -- the key 0 is refused
        have hrun : s.Set now key data = .ok (ERR_KEY_ZERO, s) := if_pos hkey
        refine ⟨_, s, call_set_ok hrun, es, hs, fun e he => ?_⟩
        have hne := fun hsame => hs.key_ne_zero he (Eq.trans (Eq.symm hsame) hkey)
        rw [lastSet_concat, valueAfter, if_neg hne]
        exact hlast e he
      · exact hrefine ⟨hkey, hc⟩
  | get now key => exact hrefine trivial
  | del key => exact hrefine trivial
  | check now =>
      obtain ⟨s', es', hrun, hs', hsub⟩ := hs.check hbs now
      refine ⟨_, s', call_check_ok hrun, es', hs', fun e he => ?_⟩
      rw [lastSet_concat]
      exact hlast e (hsub.subset he)

end Values

/-! ## Every reachable state -/

/-- The blocks that no key has. -/
def freeBlocks (s : CShmCache) : List Nat := (List.range s.m_block_num).filter fun b => s.key b = 0

/-- `GetStat` answers with the numbers of the stored keys, whose values are those of their
last `Set`. -/
def StatExact (s : CShmCache) (calls : List CacheCall) : Prop :=
  ∃ (stat : SCacheStat) (s' : CShmCache) (keys : List Nat), s.GetStat = .ok (stat, s') ∧
    keys.Nodup ∧ (∀ k, k ∈ keys ↔ s.Stored k) ∧
    (∀ k ∈ keys, lastSet calls k = some (s.valueOf k)) ∧
    stat.m_has_key = keys.length ∧
    stat.m_use_size = (keys.map fun k => (s.valueOf k).length).sum ∧
    stat.m_use_block = (keys.map fun k => pieceCount s.m_block_size (s.valueOf k).length).sum ∧
    s.freeBlocks.length + stat.m_use_block = s.m_block_num

section Reachable

variable {block_num block_size timeout : Nat} {s : CShmCache} {calls : List CacheCall}

theorem Rep.freeBlocks_length {chain : Nat → List Nat} {free : List Nat} {gs : List Group}
    (h : s.Rep chain free gs) : s.freeBlocks.length = free.length := by
  have hperm := h.inv.perm.filter fun b => s.key b = 0
  have hfree : free.filter (fun b => s.key b = 0) = free :=
    List.filter_eq_self.mpr fun b hb => decide_eq_true (h.free b hb)
  have hused : (blocksOf gs).filter (fun b => s.key b = 0) = [] := by
    refine List.filter_eq_nil_iff.mpr fun b hb => ?_
    obtain ⟨g, hg, hgb⟩ := List.mem_flatMap.mp hb
    simpa [h.key hg hgb] using (h.used g hg).1
  rw [List.filter_append, hfree, hused, List.append_nil] at hperm
  exact hperm.length_eq.symm

theorem Recorded.statExact (hbs : block_size ≠ 0)
    (h : Recorded block_num block_size timeout s calls) : s.StatExact calls := by
  obtain ⟨es, hs, hlast⟩ := h
  have hvalue : ∀ e ∈ es, s.valueOf e.key = e.value := by
    intro e he
    rw [hs.valueOf hbs, Lru.valueOf, withKey_eq_singleton hs.valid.distinct he rfl,
      List.flatMap_singleton]
  obtain ⟨chain, free, gs, hrep, -, hentries⟩ := hs.holds.rep
  have hentries : gs.map s.entryOf = es.map (Lru.cut block_size) := hentries
  have hkeys : gs.map Group.key = es.map LruEntry.key := by
    have hmap := congrArg (List.map Entry.key) hentries
    rwa [List.map_map, List.map_map] at hmap
  have hblocks : (blocksOf gs).length = Lru.load block_size es := by
    rw [← Lru.load_cut hbs, ← hentries, BlockLru.load, List.map_map, blocksOf, List.length_flatMap]
    simp [Function.comp_def, entryOf]
  have hbytes : (blocksOf gs).flatMap s.contents = es.flatMap LruEntry.value := by
    have hmap := congrArg (List.flatMap fun e : Entry => e.chunks.flatten) hentries
    rw [List.flatMap_map, List.flatMap_map] at hmap
    rw [blocksOf, List.flatMap_assoc]
    refine Eq.trans ?_ (hmap.trans ?_)
    · exact List.flatMap_congr fun g _ => List.flatMap_def
    · exact List.flatMap_congr fun e _ => flatten_pieces hbs e.value
  obtain ⟨stat, s', hrun, hhas, huse, hsize⟩ := hrep.getStat
  refine ⟨stat, s', es.map LruEntry.key, hrun, hs.valid.distinct, fun k => ?_, ?_, ?_, ?_, ?_, ?_⟩
  · rw [hrep.stored_iff, ← hkeys, List.mem_map]
  · intro k hk
    obtain ⟨e, he, rfl⟩ := List.mem_map.mp hk
    rw [hlast e he, hvalue e he]
  · rw [hhas, ← hkeys, List.length_map]
  · rw [hsize, hbytes, List.length_flatMap, List.map_map]
    apply congrArg List.sum
    exact List.map_congr_left fun e he => congrArg List.length (hvalue e he).symm
  · rw [huse, hblocks, Lru.load, List.map_map, hs.holds.size]
    refine congrArg List.sum (List.map_congr_left fun e he => ?_)
    rw [Function.comp_apply, hvalue e he]
  · rw [hrep.freeBlocks_length, huse]
    exact hrep.bounds.1

/-- A cache without room for any value: every bucket is empty. -/
structure Vacant (s : CShmCache) : Prop where
  hash : ∀ i < HASH_MASK, s.m_hash i = ⟨0, none⟩
  key : ∀ b < s.m_block_num, s.key b = 0

theorem Init_vacant (s : CShmCache) (block_num block_size timeout : Nat) :
    (s.Init block_num block_size timeout).Vacant where
  hash := fun _ hi => if_pos hi
  key := fun _ hb => congrArg SBlockHead.m_key (Init_block s hb block_size timeout)

theorem Vacant.call (h : s.Vacant) (hnone : block_num * block_size = 0) {c : CacheCall}
    (hc : Storable block_num block_size c) :
    ∃ answer s', s.call c = .ok (answer, s') ∧ s'.Vacant := by
  have hhead : ∀ k, (s.m_hash (k % HASH_MASK)).m_head = none := fun k => by
    rw [h.hash _ (mod_HASH_MASK_lt k)]
  cases c with
  | set now key data =>
      have hpos : 1 ≤ data.length ∧ data.length ≤ block_num * block_size := hc
      omega
  | get now key =>
      have hrun : s.Get now key = .ok ((ERR_KEY_NO_EXIST, []),
          { s with m_total_req := u32 (s.m_total_req + 1) }) := by
        simp only [Get, hhead, Get.loop]
        rfl
      exact ⟨_, _, call_get_ok hrun, h.hash, h.key⟩
  | del key =>
      have hrun : s.Del key = .ok (ERR_OK, s) := by
        simp only [Del, DeleteHash, hhead, DeleteHash.loop]
        rfl
      exact ⟨_, s, call_del_ok hrun, h⟩
  | check now =>
      have hwalks : ∀ buckets : List Nat, (∀ i ∈ buckets, i < HASH_MASK) →
          buckets.foldlM (fun s idx => Check.walk now (s.m_block_num + 2) (s.m_hash idx).m_head s)
            s = Except.ok s := by
        intro buckets hlt
        induction buckets with
        | nil => rfl
        | cons i buckets ih =>
            obtain ⟨hi, hlt⟩ := List.forall_mem_cons.mp hlt
            rw [List.foldlM_cons, h.hash i hi]
            exact ih hlt
      exact ⟨_, s, call_check_ok (hwalks _ fun i => List.mem_range.mp), h⟩

theorem Vacant.statExact (h : s.Vacant) (calls : List CacheCall) : s.StatExact calls := by
  have hloop : ∀ (stat : SCacheStat) (buckets : List Nat), (∀ i ∈ buckets, i < HASH_MASK) →
      buckets.foldlM (GetStat.bucket s) stat = .ok stat := by
    intro stat buckets hlt
    induction buckets with
    | nil => rfl
    | cons i buckets ih =>
        obtain ⟨hi, hlt⟩ := List.forall_mem_cons.mp hlt
        have hbucket : GetStat.bucket s stat i = .ok stat := if_pos (by rw [h.hash i hi])
        rw [List.foldlM_cons, hbucket]
        exact ih hlt
  have hrun : ∃ stat s', s.GetStat = .ok (stat, s') ∧ stat.m_use_size = 0 ∧
      stat.m_use_block = 0 ∧ stat.m_has_key = 0 := by
    rw [GetStat, hloop _ _ fun i => List.mem_range.mp]
    exact ⟨_, _, rfl, rfl, rfl, rfl⟩
  obtain ⟨stat, s', hrun, hsize, huse, hhas⟩ := hrun
  refine ⟨stat, s', [], hrun, List.nodup_nil, fun k => ?_, by simp, hhas, hsize, huse, ?_⟩
  · refine iff_of_false List.not_mem_nil fun hk => ?_
    obtain ⟨hk, b, hb, rfl⟩ := hk
    exact hk (h.key b hb)
  · have hall : s.freeBlocks = List.range s.m_block_num :=
      List.filter_eq_self.mpr fun b hb => decide_eq_true (h.key b (List.mem_range.mp hb))
    rw [hall, List.length_range, huse, Nat.add_zero]

end Reachable

/-- After any calls on a fresh cache whose layout fits, of which every `Set` brings between
one byte and all that the cache can hold, the statistics are exact. -/
theorem stat_exact (s : CShmCache) {block_num block_size : Nat} (timeout : Nat)
    (hfit : LayoutFits block_num block_size) {calls : List CacheCall}
    (hcalls : ∀ c ∈ calls, Storable block_num block_size c) :
    ∃ answers s', runCalls CShmCache.call (s.Init block_num block_size timeout) calls =
        .ok (answers, s') ∧ s'.StatExact calls := by
  by_cases hnone : block_num * block_size = 0
  · obtain ⟨answers, s', hrun, hvacant⟩ := @runCalls_history _ _ _ _ CShmCache.call
      (fun s _ => s.Vacant) _ (fun _ _ _ h hc => h.call hnone hc) _ []
      (Init_vacant s block_num block_size timeout) _ hcalls
    exact ⟨answers, s', hrun, hvacant.statExact calls⟩
  · have hn : block_num ≠ 0 := fun h0 => hnone (by rw [h0, Nat.zero_mul])
    have hbs : block_size ≠ 0 := fun h0 => hnone (by rw [h0, Nat.mul_zero])
    have hstart : Recorded block_num block_size timeout (s.Init block_num block_size timeout) [] :=
      ⟨[], Init_stores s timeout hn hfit, by simp⟩
    obtain ⟨answers, s', hrun, hrecorded⟩ := runCalls_history
      (fun _ _ _ h hc => Recorded.call hbs h hc) hstart hcalls
    exact ⟨answers, s', hrun, hrecorded.statExact hbs⟩

/-- Two keys of one bucket, three blocks of which are in use. -/
theorem stat_exact_two :
    ∃ answers s', runCalls CShmCache.call (fresh.Init 4 2 60)
        [.set 0 5 [1, 2, 3], .set 1 65541 [9], .get 2 5] = .ok (answers, s') ∧
      s'.StatExact [.set 0 5 [1, 2, 3], .set 1 65541 [9], .get 2 5] := by
  have hfit : LayoutFits 4 2 := by
    unfold LayoutFits HASH_MASK
    omega
  refine stat_exact fresh 60 hfit fun c hc => ?_
  simp only [List.mem_cons, List.not_mem_nil, or_false] at hc
  rcases hc with rfl | rfl | rfl
  · exact ⟨by decide, by decide⟩
  · exact ⟨by decide, by decide⟩
  · trivial

end CShmCache

end CommonCc
