import CommonCc.Lib.Transition
import CommonCc.Utils.ShmCache.Sweep
import Mathlib.Data.List.Range

/-!
# The links stay well formed

A fresh cache holds nothing, and every call takes a cache that holds some values to
one that holds some values.  What this says about the links, block by block, is the
representation invariant of the source.
-/

namespace CommonCc

namespace CShmCache

/-- Following the LRU links visits every block once, from the head to the tail and
back to the head; the two links of a block are inverse to each other. -/
structure LruRing (s : CShmCache) : Prop where
  visits : (List.iterate s.links.next s.m_lru_head s.m_block_num).Perm
    (List.range s.m_block_num)
  tail : (List.iterate s.links.next s.m_lru_head s.m_block_num).getLast? = some s.m_lru_tail
  closes : s.links.next s.m_lru_tail = s.m_lru_head
  inverse : ∀ b < s.m_block_num, s.links.pre (s.links.next b) = b ∧
    s.links.next (s.links.pre b) = b

/-- The chain of every bucket ends, is sorted and has exactly the blocks of the keys
of the bucket. -/
def HashChains (s : CShmCache) : Prop :=
  ∀ h < HASH_MASK, ∃ chain, Linked s.hashNext (s.m_hash h).m_head chain ∧ chain.Nodup ∧
    SortedBy s.key chain ∧
    (∀ b, b ∈ chain ↔ b < s.m_block_num ∧ s.key b ≠ 0 ∧ s.key b % HASH_MASK = h) ∧
    (s.m_hash h).m_len = chain.length

/-- In LRU order the free blocks come first. -/
def FreeFirst (s : CShmCache) : Prop :=
  (List.iterate s.links.next s.m_lru_head s.m_block_num).Pairwise
    fun a b => s.key b = 0 → s.key a = 0

section

variable {block_num block_size timeout : Nat} {s : CShmCache} {t : BlockLru}
  {chain : Nat → List Nat} {free : List Nat} {gs : List Group}

theorem Rep.iterate (h : s.Rep chain free gs) :
    List.iterate s.links.next s.m_lru_head s.m_block_num = free ++ blocksOf gs := by
  have hlen := h.inv.perm.length_eq
  have hhead := h.inv.lru.head
  have hring := h.inv.lru.ring
  cases horder : free ++ blocksOf gs with
  | nil => simp [horder] at hhead
  | cons b l =>
      rw [horder] at hlen hhead hring
      obtain rfl : b = s.m_lru_head := by simpa using hhead
      rw [List.length_range, List.length_cons] at hlen
      rw [← hlen]
      exact hring.iterate

theorem Rep.lruRing (h : s.Rep chain free gs) : s.LruRing := by
  have hmem : ∀ b < s.m_block_num, b ∈ free ++ blocksOf gs := fun b hb =>
    h.inv.perm.mem_iff.mpr (List.mem_range.mpr hb)
  refine ⟨?_, ?_, ?_, fun b hb => ⟨?_, ?_⟩⟩
  · rw [h.iterate]
    exact h.inv.perm
  · rw [h.iterate]
    exact h.inv.lru.tail
  · exact (h.inv.lru.ring.seam _ h.inv.lru.tail _ h.inv.lru.head).1
  · obtain ⟨a, -, hadj⟩ := h.inv.lru.ring.exists_adjacent (hmem b hb)
    rw [hadj.1, hadj.2]
  · obtain ⟨a, -, hadj⟩ := h.inv.lru.ring.exists_adjacent_pre (hmem b hb)
    rw [hadj.2, hadj.1]

theorem Rep.hashChains (h : s.Rep chain free gs) : s.HashChains := fun k hk =>
  ⟨chain k, h.inv.hash.linked k hk, h.inv.hash.nodup k hk, h.inv.hash.sorted k hk,
    h.inv.hash.mem k hk, h.inv.hash.count k hk⟩

theorem Rep.freeFirst (h : s.Rep chain free gs) : s.FreeFirst := by
  have hused : ∀ b ∈ blocksOf gs, s.key b ≠ 0 := by
    intro b hb
    obtain ⟨g, hg, hb⟩ := List.mem_flatMap.mp hb
    rw [h.key hg hb]
    exact (h.used g hg).1
  rw [FreeFirst, h.iterate]
  refine List.pairwise_append.mpr ⟨?_, ?_, ?_⟩
  · exact List.Pairwise.imp_of_mem (fun ha _ _ _ => h.free _ ha) (List.pairwise_of_forall
      fun _ _ => trivial)
  · exact List.Pairwise.imp_of_mem (fun _ hb _ e => absurd e (hused _ hb))
      (List.pairwise_of_forall fun _ _ => trivial)
  · exact fun a ha b _ _ => h.free a ha

/-! ## A fresh cache -/

theorem Init_block (s : CShmCache) {n b : Nat} (hb : b < n) (bs timeout : Nat) :
    (s.Init n bs timeout).m_block b =
      { m_key := 0
        m_idx := b
        m_len := 0
        m_next := none
        m_lru_pre := if b = 0 then n - 1 else b - 1
        m_lru_next := if b = n - 1 then 0 else b + 1
        m_uptime := (s.m_block b).m_uptime } :=
  if_pos hb

theorem Init_rep (s : CShmCache) {n bs timeout : Nat} (hn : n ≠ 0) (hfit : LayoutFits n bs) :
    (s.Init n bs timeout).Rep (fun _ => []) (List.range n) [] := by
  obtain ⟨m, rfl⟩ := Nat.exists_eq_succ_of_ne_zero hn
  have hkey : ∀ b < m + 1, (s.Init (m + 1) bs timeout).key b = 0 := by
    intro b hb
    rw [CShmCache.key, Init_block s hb]
  have hadj : ∀ b < m, (s.Init (m + 1) bs timeout).links.Adjacent b b.succ := by
    intro b hb
    have hb' : b < m + 1 := by omega
    constructor <;> simp [links, Init_block s hb', Init_block s (Nat.succ_lt_succ hb), hb.ne]
  have hseam : (s.Init (m + 1) bs timeout).links.Adjacent m 0 := by
    constructor <;> simp [links, Init_block s (Nat.succ_pos m), Init_block s (Nat.lt_succ_self m)]
  have hlru : (s.Init (m + 1) bs timeout).InLru (List.range (m + 1)) := by
    refine ⟨⟨(List.isChain_range_succ _ m).mpr hadj, ?_⟩, ?_, ?_, List.nodup_range⟩
    · intro a ha b hb
      obtain rfl : a = m := by simpa [List.getLast?_range] using ha.symm
      obtain rfl : b = 0 := by simpa [List.head?_range] using hb.symm
      exact hseam
    · simp [List.head?_range, Init]
    · simp [List.getLast?_range, Init]
  have hhash : (s.Init (m + 1) bs timeout).InHash fun _ => [] := by
    refine ⟨?_, ?_, ?_, ?_, ?_, ?_⟩
    · intro h hh
      simp [Init, hh]
    · intro h hh
      simp [Init, hh]
    · exact fun _ _ => List.Pairwise.nil
    · exact fun _ _ => List.nodup_nil
    · intro h _ b
      simp only [List.not_mem_nil, false_iff]
      exact fun hb => hb.2.1 (hkey b hb.1)
    · intro b hb _
      have hb' : b < m + 1 := hb
      rw [hashNext, Init_block s hb']
  refine ⟨⟨by simpa [blocksOf] using hlru, ?_, hhash, ?_, ?_, hfit, rfl⟩, ?_, ?_, by simp,
    by simp, List.nodup_nil⟩
  · simp [blocksOf, Init]
  · intro b hb
    have hb' : b < m + 1 := hb
    rw [Init_block s hb']
  · intro b hb
    have hb' : b < m + 1 := hb
    rw [Init_block s hb']
    exact Nat.zero_le _
  · intro k
    simp [withKey, blocksOf]
  · exact fun b hb => hkey b (List.mem_range.mp hb)

theorem Init_holds (s : CShmCache) {n bs timeout : Nat} (hn : n ≠ 0) (hfit : LayoutFits n bs) :
    Holds n bs timeout (s.Init n bs timeout) ⟨n, []⟩ :=
  ⟨rfl, rfl, rfl, _, _, _, Init_rep s hn hfit, List.length_range, rfl⟩

/-! ## Check -/

theorem Rep.holds (h : s.Rep chain free gs) (hnum : s.m_block_num = block_num)
    (hsize : s.m_block_size = block_size) (htime : s.m_timeout = timeout) :
    Holds block_num block_size timeout s ⟨free.length, gs.map s.entryOf⟩ :=
  ⟨hnum, hsize, htime, chain, free, gs, h, rfl, rfl⟩

/-- `Check` leaves a cache that holds some values. -/
theorem Holds.check (h : Holds block_num block_size timeout s t) (now : Int) :
    ∃ s' t', s.Check now = .ok s' ∧ Holds block_num block_size timeout s' t' := by
  obtain ⟨chain, free, gs, hrep, -, -⟩ := h.rep
  obtain ⟨s', chain', free', hrun, hrep', hkept⟩ := hrep.check now
  exact ⟨s', _, hrun, hrep'.holds (hkept.block_num.trans h.num) (hkept.block_size.trans h.size)
    (hkept.timeout.trans h.time)⟩

/-! ## Every run -/

/-- A call of any kind answers and leaves a cache that holds some values. -/
theorem Holds.call (h : Holds block_num block_size timeout s t) (hbs : block_size ≠ 0)
    (c : CacheCall) :
    ∃ answer s', s.call c = .ok (answer, s') ∧
      ∃ t', Holds block_num block_size timeout s' t' := by
  cases c with
  | set now key data =>
      obtain ⟨s', hrun, h'⟩ := h.set hbs now key data
      exact ⟨_, s', call_set_ok hrun, _, h'⟩
  | get now key =>
      obtain ⟨s', hrun, h'⟩ := h.get now key
      exact ⟨_, s', call_get_ok hrun, _, h'⟩
  | del key =>
      obtain ⟨s', hrun, h'⟩ := h.del key
      exact ⟨_, s', call_del_ok hrun, _, h'⟩
  | check now =>
      obtain ⟨s', t', hrun, h'⟩ := h.check now
      exact ⟨_, s', call_check_ok hrun, t', h'⟩

/-- Every run from a fresh cache answers, and ends in a cache that holds some values. -/
theorem run_holds (s : CShmCache) {n bs : Nat} (timeout : Nat) (hn : n ≠ 0) (hbs : bs ≠ 0)
    (hfit : LayoutFits n bs) (calls : List CacheCall) :
    ∃ answers s', runCalls CShmCache.call (s.Init n bs timeout) calls = .ok (answers, s') ∧
      ∃ t, Holds n bs timeout s' t :=
  runCalls_invariant (I := fun s' => ∃ t, Holds n bs timeout s' t)
    (fun _ c ⟨_, h⟩ => h.call hbs c) ⟨_, Init_holds s hn hfit⟩ calls

/-- In every state that calls can reach, the LRU list, the hash chains and the order
of free and used blocks are as they should be; no call runs into an `assert` or a
loop without end. -/
theorem calls_keep_links (s : CShmCache) {block_num block_size : Nat} (timeout : Nat)
    (hn : 1 ≤ block_num) (hbs : 1 ≤ block_size) (hfit : LayoutFits block_num block_size)
    (calls : List CacheCall) :
    ∃ answers s', runCalls CShmCache.call (s.Init block_num block_size timeout) calls =
        .ok (answers, s') ∧
      s'.LruRing ∧ s'.HashChains ∧ s'.FreeFirst := by
  obtain ⟨answers, s', hrun, t, h⟩ := run_holds s timeout (Nat.ne_of_gt hn) (Nat.ne_of_gt hbs)
    hfit calls
  obtain ⟨chain, free, gs, hrep, -, -⟩ := h.rep
  exact ⟨answers, s', hrun, hrep.lruRing, hrep.hashChains, hrep.freeFirst⟩

theorem calls_keep_links_three :
    ∃ answers s', runCalls CShmCache.call (fresh.Init 3 2 60)
        [.set 0 5 [1, 2, 3, 4, 5, 6, 7], .set 1 65541 [9], .check 2, .del 5] =
          .ok (answers, s') ∧
      s'.LruRing ∧ s'.HashChains ∧ s'.FreeFirst :=
  calls_keep_links fresh 60 (by decide) (by decide) (by unfold LayoutFits HASH_MASK; omega) _

end

end CShmCache

end CommonCc
