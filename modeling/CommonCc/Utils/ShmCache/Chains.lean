import CommonCc.Lib.Sorted
import Mathlib.Data.List.Perm.Subperm
import CommonCc.Utils.ShmCache.Links

/-!
# The hash chains and the cache invariant

`InHash` says which blocks are in the chain of each bucket.  `Inv` joins it to the
LRU list: every block is in that list, and the blocks in use are the chained ones.
The rules below take one block out of its chain and put one into it.
-/

namespace CommonCc

theorem mod_HASH_MASK_lt (key : Nat) : key % HASH_MASK < HASH_MASK := by
  unfold HASH_MASK
  omega

namespace CShmCache

def key (s : CShmCache) (b : Nat) : Nat := (s.m_block b).m_key

def hashNext (s : CShmCache) (b : Nat) : Option Nat := (s.m_block b).m_next

/-- The blocks of every bucket, in chain order. -/
structure InHash (s : CShmCache) (chain : Nat → List Nat) : Prop where
  linked : ∀ h < HASH_MASK, Linked s.hashNext (s.m_hash h).m_head (chain h)
  count : ∀ h < HASH_MASK, (s.m_hash h).m_len = (chain h).length
  sorted : ∀ h < HASH_MASK, SortedBy s.key (chain h)
  nodup : ∀ h < HASH_MASK, (chain h).Nodup
  mem : ∀ h < HASH_MASK, ∀ b, b ∈ chain h ↔
    b < s.m_block_num ∧ s.key b ≠ 0 ∧ s.key b % HASH_MASK = h
  free : ∀ b < s.m_block_num, s.key b = 0 → s.hashNext b = none

/-- The invariant of the two linked structures. -/
structure Inv (s : CShmCache) (order : List Nat) (chain : Nat → List Nat) : Prop where
  lru : s.InLru order
  perm : order.Perm (List.range s.m_block_num)
  hash : s.InHash chain
  idx : ∀ b < s.m_block_num, (s.m_block b).m_idx = b
  len : ∀ b < s.m_block_num, (s.m_block b).m_len ≤ s.m_block_size
  layout : LayoutFits s.m_block_num s.m_block_size
  size : s.m_data_buffer.size = s.m_block_num * s.m_block_size

namespace InHash

variable {s s' : CShmCache} {chain : Nat → List Nat}

theorem of_moved (h : s.InHash chain) (hm : LruMoved s s') : s'.InHash chain := by
  have hkey : s'.key = s.key := funext hm.key
  have hnext : s'.hashNext = s.hashNext := funext hm.next
  refine ⟨?_, ?_, ?_, h.nodup, ?_, ?_⟩
  · rw [hnext, hm.hash]
    exact h.linked
  · rw [hm.hash]
    exact h.count
  · rw [hkey]
    exact h.sorted
  · rw [hkey, hm.block_num]
    exact h.mem
  · rw [hkey, hnext, hm.block_num]
    exact h.free

theorem length_le (h : s.InHash chain) {k : Nat} (hk : k < HASH_MASK) :
    (chain k).length ≤ s.m_block_num := by
  have hsub : chain k ⊆ List.range s.m_block_num := fun b hb =>
    List.mem_range.mpr ((h.mem k hk b).mp hb).1
  simpa using ((h.nodup k hk).subperm hsub).length_le

/-- Two buckets share no block. -/
theorem ne_of_mem (h : s.InHash chain) {j k a b : Nat} (hj : j < HASH_MASK) (hk : k < HASH_MASK)
    (hjk : j ≠ k) (ha : a ∈ chain j) (hb : b ∈ chain k) : a ≠ b := by
  rintro rfl
  exact hjk (((h.mem j hj a).mp ha).2.2.symm.trans ((h.mem k hk a).mp hb).2.2)

/-- The block before a position of one bucket is in no other bucket. -/
theorem ne_getLast (h : s.InHash chain) {j k a : Nat} {as bs : List Nat} (hj : j < HASH_MASK)
    (hk : k < HASH_MASK) (hjk : j ≠ k) (ha : a ∈ chain j) (hsplit : chain k = as ++ bs) :
    ∀ p ∈ as.getLast?, a ≠ p := by
  intro p hp
  refine h.ne_of_mem hj hk hjk ha ?_
  rw [hsplit]
  exact List.mem_append_left bs (List.mem_of_getLast? hp)

/-- The block before a position of a bucket is in use. -/
theorem ne_getLast_of_free (h : s.InHash chain) {k b : Nat} {as bs : List Nat}
    (hk : k < HASH_MASK) (hsplit : chain k = as ++ bs) (hb : s.key b = 0) :
    ∀ p ∈ as.getLast?, b ≠ p := by
  rintro p hp rfl
  have hmem : b ∈ chain k := by
    rw [hsplit]
    exact List.mem_append_left bs (List.mem_of_getLast? hp)
  exact ((h.mem k hk b).mp hmem).2.1 hb

/-- A new chain in one bucket, when of the keys only that of `d` changes. -/
theorem of_bucket (h : s.InHash chain) {k d : Nat} {blocks : List Nat}
    (hnum : s'.m_block_num = s.m_block_num) (hkey : ∀ b, b ≠ d → s'.key b = s.key b)
    (hd : s'.key d ≠ 0 → s'.key d % HASH_MASK = k)
    (hout : ∀ j < HASH_MASK, j ≠ k → d ∉ chain j)
    (hhash : ∀ j < HASH_MASK, j ≠ k → s'.m_hash j = s.m_hash j)
    (hnext : ∀ j < HASH_MASK, j ≠ k → ∀ a ∈ chain j, s'.hashNext a = s.hashNext a)
    (hlinked : Linked s'.hashNext (s'.m_hash k).m_head blocks)
    (hcount : (s'.m_hash k).m_len = blocks.length) (hsorted : SortedBy s'.key blocks)
    (hnodup : blocks.Nodup) (hmem : ∀ b, b ≠ d → (b ∈ blocks ↔ b ∈ chain k))
    (hmemd : d ∈ blocks ↔ d < s.m_block_num ∧ s'.key d ≠ 0)
    (hfree : ∀ b < s.m_block_num, s'.key b = 0 → s'.hashNext b = none) :
    s'.InHash (Function.update chain k blocks) := by
  have hne : ∀ j < HASH_MASK, j ≠ k → ∀ a ∈ chain j, a ≠ d := fun j hj hjk a ha =>
    ne_of_mem_of_not_mem ha (hout j hj hjk)
  refine ⟨?_, ?_, ?_, ?_, ?_, ?_⟩
  · intro j hj
    rcases eq_or_ne j k with rfl | hjk
    · rwa [Function.update_self]
    · rw [Function.update_of_ne hjk, hhash j hj hjk]
      exact (h.linked j hj).congr (hnext j hj hjk)
  · intro j hj
    rcases eq_or_ne j k with rfl | hjk
    · rwa [Function.update_self]
    · rw [Function.update_of_ne hjk, hhash j hj hjk, h.count j hj]
  · intro j hj
    rcases eq_or_ne j k with rfl | hjk
    · rwa [Function.update_self]
    · rw [Function.update_of_ne hjk]
      exact (h.sorted j hj).congr fun a ha => hkey a (hne j hj hjk a ha)
  · intro j hj
    rcases eq_or_ne j k with rfl | hjk
    · rwa [Function.update_self]
    · rw [Function.update_of_ne hjk]
      exact h.nodup j hj
  · intro j hj b
    rw [hnum]
    rcases eq_or_ne j k with rfl | hjk
    · rw [Function.update_self]
      rcases eq_or_ne b d with rfl | hbd
      · rw [hmemd]
        exact ⟨fun hb => ⟨hb.1, hb.2, hd hb.2⟩, fun hb => ⟨hb.1, hb.2.1⟩⟩
      · rw [hmem b hbd, hkey b hbd, h.mem j hj b]
    · rw [Function.update_of_ne hjk]
      rcases eq_or_ne b d with rfl | hbd
      · exact iff_of_false (hout j hj hjk) fun hb => hjk (hb.2.2.symm.trans (hd hb.2.1))
      · rw [hkey b hbd, h.mem j hj b]
  · rwa [hnum]

/-- Taking the block `d` out of its chain and freeing it. -/
theorem remove (h : s.InHash chain) {k d : Nat} {as bs : List Nat} (hk : k < HASH_MASK)
    (hn : s.m_block_num < 4294967296) (hsplit : chain k = as ++ d :: bs)
    (hnum : s'.m_block_num = s.m_block_num)
    (hkey : s'.key = Function.update s.key d 0)
    (hnext : s'.hashNext =
      Function.update (linkNext s.hashNext as.getLast? (s.hashNext d)) d none)
    (hhash : s'.m_hash = Function.update s.m_hash k
      ⟨u32Sub (s.m_hash k).m_len 1,
        linkHead (s.m_hash k).m_head as.getLast? (s.hashNext d)⟩) :
    s'.InHash (Function.update chain k (as ++ bs)) := by
  have hnodup := h.nodup k hk
  have hlinked := h.linked k hk
  have hsorted := h.sorted k hk
  rw [hsplit] at hnodup hlinked hsorted
  have hd : d ∈ chain k := by simp [hsplit]
  have hdrest : d ∉ as ++ bs := (List.nodup_middle.mp hnodup).notMem
  have hrest : (as ++ bs).Nodup := (List.nodup_middle.mp hnodup).of_cons
  have hd0 : s'.key d = 0 := by rw [hkey, Function.update_self]
  have hkeep : ∀ b, b ≠ d → s'.key b = s.key b := by
    intro b hb
    rw [hkey, Function.update_of_ne hb]
  refine h.of_bucket hnum hkeep (absurd hd0) ?_ ?_ ?_ ?_ ?_ ?_ hrest ?_ ?_ ?_
  · exact fun j hj hjk hdj => h.ne_of_mem hj hk hjk hdj hd rfl
  · intro j _ hjk
    rw [hhash, Function.update_of_ne hjk]
  · intro j hj hjk a ha
    rw [hnext, Function.update_of_ne (h.ne_of_mem hj hk hjk ha hd),
      linkNext_of_ne (h.ne_getLast hj hk hjk ha hsplit)]
  · rw [hnext, hhash, Function.update_self]
    refine (hlinked.relink ?_ hrest).congr fun a ha => ?_
    · exact hlinked.rest.2
    · have hne : a ≠ d := ne_of_mem_of_not_mem ha hdrest
      exact Function.update_of_ne hne _ _
  · have hlen := h.length_le hk
    rw [hsplit, List.length_append, List.length_cons] at hlen
    rw [hhash, Function.update_self, h.count k hk, hsplit, List.length_append,
      List.length_append, List.length_cons, u32Sub_of_le (by omega) (by omega)]
    show as.length + (bs.length + 1) - 1 = _
    omega
  · rw [← List.singleton_append, ← List.append_assoc] at hsorted
    exact hsorted.remove.congr fun a ha => hkeep a (ne_of_mem_of_not_mem ha hdrest)
  · intro b hbd
    rw [hsplit]
    simp [hbd]
  · exact iff_of_false hdrest fun hmem => hmem.2 hd0
  · intro b hb hb0
    rw [hnext]
    rcases eq_or_ne b d with rfl | hbd
    · rw [Function.update_self]
    · rw [hkeep b hbd] at hb0
      rw [Function.update_of_ne hbd, linkNext_of_ne (h.ne_getLast_of_free hk hsplit hb0)]
      exact h.free b hb hb0

/-- Putting the free block `d` into the chain of the key `k`. -/
theorem insert (h : s.InHash chain) {k d : Nat} {as bs : List Nat} (hk0 : k ≠ 0)
    (hn : s.m_block_num + 1 < 4294967296) (hsplit : chain (k % HASH_MASK) = as ++ bs)
    (has : ∀ a ∈ as, s.key a ≤ k) (hbs : ∀ b ∈ bs, k < s.key b)
    (hd : d < s.m_block_num) (hfree : s.key d = 0)
    (hnum : s'.m_block_num = s.m_block_num)
    (hkey : s'.key = Function.update s.key d k)
    (hnext : s'.hashNext =
      linkNext (Function.update s.hashNext d bs.head?) as.getLast? (some d))
    (hhash : s'.m_hash = Function.update s.m_hash (k % HASH_MASK)
      ⟨u32 ((s.m_hash (k % HASH_MASK)).m_len + 1),
        linkHead (s.m_hash (k % HASH_MASK)).m_head as.getLast? (some d)⟩) :
    s'.InHash (Function.update chain (k % HASH_MASK) (as ++ d :: bs)) := by
  have hm := mod_HASH_MASK_lt k
  generalize hb : k % HASH_MASK = m at *
  have hnodup := h.nodup m hm
  have hlinked := h.linked m hm
  have hsorted := h.sorted m hm
  rw [hsplit] at hnodup hlinked hsorted
  have hnew : ∀ j < HASH_MASK, d ∉ chain j := fun j hj hdj => ((h.mem j hj d).mp hdj).2.1 hfree
  have hd' : d ∉ as ++ bs := by
    rw [← hsplit]
    exact hnew m hm
  have hdk : s'.key d = k := by rw [hkey, Function.update_self]
  have hkeep : ∀ b, b ≠ d → s'.key b = s.key b := by
    intro b hbd
    rw [hkey, Function.update_of_ne hbd]
  have hkeys : ∀ a ∈ as ++ bs, s'.key a = s.key a := fun a ha =>
    hkeep a (ne_of_mem_of_not_mem ha hd')
  refine h.of_bucket hnum hkeep (fun _ => by rw [hdk, hb]) (fun j hj _ => hnew j hj) ?_ ?_ ?_ ?_ ?_
    (List.nodup_middle.mpr (hnodup.cons hd')) ?_ ?_ ?_
  · intro j _ hjm
    rw [hhash, Function.update_of_ne hjm]
  · intro j hj hjm a ha
    rw [hnext, linkNext_of_ne (h.ne_getLast hj hm hjm ha hsplit),
      Function.update_of_ne (ne_of_mem_of_not_mem ha (hnew j hj))]
  · rw [hnext, hhash, Function.update_self]
    have hlinks : ∀ a ∈ as ++ bs, Function.update s.hashNext d bs.head? a = s.hashNext a :=
      fun a ha => Function.update_of_ne (ne_of_mem_of_not_mem ha hd') _ _
    refine (hlinked.congr hlinks).relink ?_ (List.nodup_middle.mpr (hnodup.cons hd'))
    refine ⟨rfl, ?_⟩
    rw [Function.update_self]
    exact hlinked.rest.congr fun a ha => hlinks a (List.mem_append_right as ha)
  · have hlen := h.length_le hm
    rw [hhash, Function.update_self, h.count m hm, u32_of_lt (by omega), hsplit,
      List.length_append, List.length_append, List.length_cons, Nat.add_assoc]
  · refine (hsorted.congr hkeys).insert ?_ ?_
    · intro a ha
      rw [hkeys a (List.mem_append_left bs ha), hdk]
      exact has a ha
    · intro b hb
      rw [hkeys b (List.mem_append_right as hb), hdk]
      exact Nat.le_of_lt (hbs b hb)
  · intro b hbd
    rw [hsplit]
    simp [hbd]
  · rw [hdk]
    exact iff_of_true (by simp) ⟨hd, hk0⟩
  · intro b hb' hb0
    have hbd : b ≠ d := by
      rintro rfl
      exact hk0 (hdk.symm.trans hb0)
    rw [hkeep b hbd] at hb0
    rw [hnext, linkNext_of_ne (h.ne_getLast_of_free hm hsplit hb0), Function.update_of_ne hbd]
    exact h.free b hb' hb0

end InHash

end CShmCache

end CommonCc
