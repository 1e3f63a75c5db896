import CommonCc.Lib.Pieces
import CommonCc.Utils.ShmCache.Groups

/-!
# The cache as a list of cut values

`BlockLru` forgets the blocks and keeps how many are free and, from the least
recently used key on, the pieces of every value.  The cache does exactly what it
says, for values of any length.
-/

namespace CommonCc

/-- A key with the pieces of its value. -/
structure Entry where
  key : Nat
  uptime : Int
  chunks : List Bytes

structure BlockLru where
  free : Nat
  entries : List Entry

namespace BlockLru

def remove (t : BlockLru) (k : Nat) : BlockLru :=
  ⟨((withKey Entry.key k t.entries).map fun e => e.chunks.length).sum + t.free,
    withoutKey Entry.key k t.entries⟩

/-- The cache while the value with the pieces `cur` is being written. -/
structure Fill where
  free : Nat
  entries : List Entry
  cur : List Bytes

/-- The next piece takes a free block, or a block of the oldest key, or, when there is
no other key, a block of the value itself, which then starts anew. -/
def Fill.put (f : Fill) (chunk : Bytes) : Fill :=
  match f.free, f.entries with
  | n + 1, es => ⟨n, es, f.cur ++ [chunk]⟩
  | 0, e :: es => ⟨e.chunks.length - 1, es, f.cur ++ [chunk]⟩
  | 0, [] => ⟨f.cur.length - 1, [], [chunk]⟩

def Fill.finish (f : Fill) (k : Nat) (now : Int) : BlockLru :=
  ⟨f.free, f.entries ++ if f.cur = [] then [] else [⟨k, now, f.cur⟩]⟩

def fill (t : BlockLru) (chunks : List Bytes) : Fill :=
  chunks.foldl Fill.put ⟨t.free, t.entries, []⟩

def set (block_size : Nat) (t : BlockLru) (now : Int) (k : Nat) (data : Bytes) :
    Int × BlockLru :=
  if k = 0 then (ERR_KEY_ZERO, t)
  else (ERR_OK, ((t.remove k).fill (pieces block_size data)).finish k now)

def get (timeout : Nat) (t : BlockLru) (now : Int) (k : Nat) : (Int × Bytes) × BlockLru :=
  match withKey Entry.key k t.entries with
  | [] => ((ERR_KEY_NO_EXIST, []), t)
  | e :: _ =>
      if now - e.uptime > timeout then ((ERR_KEY_TIMEOUT, []), t.remove k)
      else ((ERR_OK, e.chunks.flatten),
        ⟨t.free, withoutKey Entry.key k t.entries ++ withKey Entry.key k t.entries⟩)

end BlockLru

namespace CShmCache

/-- A group with what its blocks hold. -/
def entryOf (s : CShmCache) (g : Group) : Entry := ⟨g.key, g.uptime, g.blocks.map s.contents⟩

/-- The cache `s`, set up with these parameters, holds the values of `t`. -/
structure Holds (block_num block_size timeout : Nat) (s : CShmCache) (t : BlockLru) : Prop where
  num : s.m_block_num = block_num
  size : s.m_block_size = block_size
  time : s.m_timeout = timeout
  rep : ∃ chain free gs, s.Rep chain free gs ∧ free.length = t.free ∧ gs.map s.entryOf = t.entries

/-- The cache `s` in the middle of a `Set`. -/
structure Filling (block_num block_size timeout k : Nat) (now : Int) (s : CShmCache)
    (f : BlockLru.Fill) : Prop where
  num : s.m_block_num = block_num
  size : s.m_block_size = block_size
  time : s.m_timeout = timeout
  rep : ∃ chain free gs blocks, s.Rep chain free (gs ++ pending k now blocks) ∧ (∀ g ∈ gs, g.key ≠ k) ∧
    free.length = f.free ∧ gs.map s.entryOf = f.entries ∧ blocks.map s.contents = f.cur

/-! ## What a block holds -/

section Contents

variable {s s' : CShmCache} {chain : Nat → List Nat} {free ds : List Nat} {gs gs' : List Group}

theorem Freed.contents (h : Freed s s' ds) {b : Nat} (hb : b ∉ ds) :
    s'.contents b = s.contents b := by
  rw [CShmCache.contents, h.data, h.block_size, h.len, if_neg hb]
  rfl

theorem LruMoved.contents (h : LruMoved s s') : s'.contents = s.contents := by
  funext b
  rw [CShmCache.contents, h.data, h.block_size, h.len]
  rfl

theorem Filled.contents_self {d k : Nat} {now : Int} {chunk : Bytes}
    (h : Filled s s' d k now chunk) : s'.contents d = chunk := by
  rw [CShmCache.contents, h.data, h.block_size, h.len, if_pos rfl, Memory.read_write_self]

/-- Blocks do not overlap. -/
theorem Filled.contents_of_ne {d k b : Nat} {now : Int} {chunk : Bytes}
    (h : Filled s s' d k now chunk) (hb : b ≠ d) (hc : chunk.length ≤ s.m_block_size)
    (hlen : (s.m_block b).m_len ≤ s.m_block_size) : s'.contents b = s.contents b := by
  rw [CShmCache.contents, h.data, h.block_size, h.len, if_neg hb,
    Memory.read_write_disjoint _ ?_]
  · rfl
  · rcases Nat.lt_or_gt_of_ne hb with hlt | hgt
    · have := Nat.mul_le_mul_right s.m_block_size (Nat.succ_le_of_lt hlt)
      rw [Nat.succ_mul] at this
      omega
    · have := Nat.mul_le_mul_right s.m_block_size (Nat.succ_le_of_lt hgt)
      rw [Nat.succ_mul] at this
      omega

theorem entryOf_congr (h : ∀ b ∈ blocksOf gs, s'.contents b = s.contents b) :
    gs.map s'.entryOf = gs.map s.entryOf := by
  refine List.map_congr_left fun g hg => ?_
  have hblocks : g.blocks.map s'.contents = g.blocks.map s.contents :=
    List.map_congr_left fun b hb => h b (List.mem_flatMap.mpr ⟨g, hg, hb⟩)
  rw [entryOf, entryOf, hblocks]

theorem withKey_entryOf (s : CShmCache) (k : Nat) (gs : List Group) :
    withKey Entry.key k (gs.map s.entryOf) = (withKey Group.key k gs).map s.entryOf :=
  map_withKey (fun _ => rfl) k gs

theorem withoutKey_entryOf (s : CShmCache) (k : Nat) (gs : List Group) :
    withoutKey Entry.key k (gs.map s.entryOf) = (withoutKey Group.key k gs).map s.entryOf :=
  map_withoutKey (fun _ => rfl) k gs

/-- Blocks of other groups are not the ones of a key. -/
theorem Rep.notMem_withKey (h : s.Rep chain free gs) (k : Nat) {b : Nat}
    (hb : b ∈ blocksOf (withoutKey Group.key k gs)) : b ∉ blocksOf (withKey Group.key k gs) := by
  obtain ⟨g, hg, hb⟩ := List.mem_flatMap.mp hb
  obtain ⟨hg, hne⟩ := mem_withoutKey.mp hg
  intro hmem
  obtain ⟨g', hg', hb'⟩ := List.mem_flatMap.mp hmem
  obtain ⟨hg', hk⟩ := mem_withKey.mp hg'
  exact hne ((h.key hg hb).symm.trans ((h.key hg' hb').trans hk))

end Contents

/-! ## The operations -/

section Operations

variable {block_num block_size timeout : Nat} {s : CShmCache} {t : BlockLru}

/-- `DeleteHash` is `remove`. -/
theorem Holds.deleteHash (h : Holds block_num block_size timeout s t) (k : Nat) :
    ∃ s', s.DeleteHash k = .ok s' ∧ Holds block_num block_size timeout s' (t.remove k) := by
  obtain ⟨chain, free, gs, hrep, hfree, hentries⟩ := h.rep
  obtain ⟨s', hrun, hrep', hf⟩ := hrep.deleteHash k
  refine ⟨s', hrun, hf.block_num.trans h.num, hf.block_size.trans h.size,
    hf.timeout.trans h.time, _, _, _, hrep', ?_, ?_⟩
  · rw [BlockLru.remove, ← hentries, withKey_entryOf, List.length_append, List.length_reverse,
      hfree, blocksOf, List.length_flatMap, List.map_map]
    simp [Function.comp_def, entryOf]
  · rw [BlockLru.remove, ← hentries, withoutKey_entryOf]
    exact entryOf_congr fun b hb => hf.contents (hrep.notMem_withKey k hb)

/-- One turn of `Set` with a free block. -/
theorem Filling.put_free {k n : Nat} {now : Int} {f : BlockLru.Fill}
    (h : Filling block_num block_size timeout k now s f) (hk : k ≠ 0) {chunk : Bytes}
    (hc : chunk.length ≤ block_size) (hn : f.free = n + 1) :
    ∃ s', Set.put s k now chunk = .ok s' ∧
      Filling block_num block_size timeout k now s' ⟨n, f.entries, f.cur ++ [chunk]⟩ := by
  obtain ⟨chain, free, gs, blocks, hrep, hnew, hfree, hentries, hcur⟩ := h.rep
  cases free with
  | nil => simp [hn] at hfree
  | cons d free =>
      have hc' : chunk.length ≤ s.m_block_size := by rwa [h.size]
      obtain ⟨s', chain', hrun, hrep', hf⟩ := hrep.put hk hnew hc'
      have hkeep : ∀ b ∈ blocksOf (gs ++ pending k now blocks), s'.contents b = s.contents b := by
        intro b hb
        obtain ⟨g, hg, hbg⟩ := List.mem_flatMap.mp hb
        have hne : b ≠ d := by
          rintro rfl
          exact (List.nodup_cons.mp hrep.nodup).1 (List.mem_append_right free hb)
        exact hf.contents_of_ne hne hc' (hrep.inv.len b (hrep.block_lt hg hbg))
      rw [blocksOf_append, blocksOf_pending] at hkeep
      refine ⟨s', hrun, hf.block_num.trans h.num, hf.block_size.trans h.size,
        hf.timeout.trans h.time, chain', free, gs, blocks ++ [d], hrep', hnew, ?_, ?_, ?_⟩
      · simpa [hn] using hfree
      · rw [← hentries]
        exact entryOf_congr fun b hb => hkeep b (List.mem_append_left blocks hb)
      · rw [List.map_append, List.map_singleton, hf.contents_self, ← hcur]
        congr 1
        exact List.map_congr_left fun b hb => hkeep b (List.mem_append_right _ hb)

/-- One turn of `Set` without a free block begins like one with the oldest key gone. -/
theorem Filling.put_full {k : Nat} {now : Int} {f : BlockLru.Fill}
    (h : Filling block_num block_size timeout k now s f) (chunk : Bytes) (hn : f.free = 0) :
    ∃ s' f' n, Filling block_num block_size timeout k now s' f' ∧ f'.free = n + 1 ∧
      Set.put s k now chunk = Set.put s' k now chunk ∧
      f.put chunk = ⟨n, f'.entries, f'.cur ++ [chunk]⟩ := by
  obtain ⟨chain, free, gs, blocks, hrep, hnew, hfree, hentries, hcur⟩ := h.rep
  obtain rfl : free = [] := List.length_eq_zero_iff.mp (hfree.trans hn)
  have hlen : ∀ {bs : List Nat}, bs ≠ [] → bs.length = bs.length - 1 + 1 := fun hbs =>
    (Nat.succ_pred_eq_of_ne_zero (mt List.length_eq_zero_iff.mp hbs)).symm
  cases gs with
  | nil =>
      have hblocks : blocks ≠ [] := by
        rintro rfl
        exact absurd hrep.inv.lru.head (by simp [blocksOf, pending])
      rw [List.nil_append, pending, if_neg hblocks] at hrep
      obtain ⟨s', chain', -, hrep', hf, hput⟩ := hrep.put_evict k now chunk
      refine ⟨s', ⟨blocks.length, [], []⟩, blocks.length - 1, ⟨hf.block_num.trans h.num,
        hf.block_size.trans h.size, hf.timeout.trans h.time, _, _, [], [], hrep', ?_, ?_, ?_, ?_⟩,
        hlen hblocks, hput, ?_⟩
      · simp
      · simp
      · rfl
      · rfl
      · have hes : f.entries = [] := hentries.symm
        rw [BlockLru.Fill.put, hn, hes, ← hcur]
        simp
  | cons g gs =>
      obtain ⟨s', chain', -, hrep', hf, hput⟩ := hrep.put_evict k now chunk
      have hg := (hrep.used g List.mem_cons_self).2
      have hkeep : ∀ b ∈ blocksOf (gs ++ pending k now blocks), s'.contents b = s.contents b := by
        intro b hb
        refine hf.contents fun hbg => ?_
        have hnodup := hrep.nodup
        rw [List.nil_append, List.cons_append, ← List.singleton_append, blocksOf_append,
          blocksOf_singleton] at hnodup
        exact (List.nodup_append.mp hnodup).2.2 b hbg b hb rfl
      rw [blocksOf_append, blocksOf_pending] at hkeep
      refine ⟨s', ⟨g.blocks.length, gs.map s.entryOf, f.cur⟩, g.blocks.length - 1,
        ⟨hf.block_num.trans h.num, hf.block_size.trans h.size, hf.timeout.trans h.time,
          _, _, gs, blocks, hrep', ?_, ?_, ?_, ?_⟩, hlen hg, hput, ?_⟩
      · exact fun g' hg' => hnew g' (List.mem_cons_of_mem g hg')
      · simp
      · exact entryOf_congr fun b hb => hkeep b (List.mem_append_left blocks hb)
      · rw [← hcur]
        exact List.map_congr_left fun b hb => hkeep b (List.mem_append_right _ hb)
      · rw [BlockLru.Fill.put, hn, ← hentries]
        simp [entryOf]

/-- One turn of `Set` is `Fill.put`. -/
theorem Filling.put {k : Nat} {now : Int} {f : BlockLru.Fill}
    (h : Filling block_num block_size timeout k now s f) (hk : k ≠ 0) {chunk : Bytes}
    (hc : chunk.length ≤ block_size) :
    ∃ s', Set.put s k now chunk = .ok s' ∧
      Filling block_num block_size timeout k now s' (f.put chunk) := by
  cases hn : f.free with
  | succ n =>
      have hput : f.put chunk = ⟨n, f.entries, f.cur ++ [chunk]⟩ := by
        rw [BlockLru.Fill.put, hn]
      rw [hput]
      exact h.put_free hk hc hn
  | zero =>
      obtain ⟨s₁, f₁, n, h₁, hn₁, hrun, hput⟩ := h.put_full chunk hn
      rw [hrun, hput]
      exact h₁.put_free hk hc hn₁

/-- The loop of `Set` stores the pieces one after another. -/
theorem Filling.loop {k : Nat} {now : Int} {f : BlockLru.Fill} {data : Bytes}
    (h : Filling block_num block_size timeout k now s f) (hk : k ≠ 0) (hbs : block_size ≠ 0)
    {fuel copyed data_len : Nat} (hfuel : data_len ≤ fuel)
    (hlen : copyed + data_len = data.length) :
    ∃ s', Set.loop k now data fuel copyed data_len s = .ok s' ∧
      Filling block_num block_size timeout k now s'
        ((pieces block_size (data.drop copyed)).foldl BlockLru.Fill.put f) := by
  induction fuel generalizing s f copyed data_len with
  | zero =>
      obtain rfl : data_len = 0 := by omega
      refine ⟨s, rfl, ?_⟩
      rw [List.drop_eq_nil_of_le (by omega), pieces_nil]
      exact h
  | succ fuel ih =>
      cases data_len with
      | zero =>
          refine ⟨s, by simp [Set.loop], ?_⟩
          rw [List.drop_eq_nil_of_le (by omega), pieces_nil]
          exact h
      | succ data_len =>
          have hrest : (data.drop copyed).length = data_len + 1 := by
            rw [List.length_drop]
            omega
          have hne : data.drop copyed ≠ [] := by
            intro e
            simp [e] at hrest
          -- the bytes of this turn are the first piece of what is left
          obtain ⟨n, hn, htake, hdrop, hle, hpos⟩ : ∃ n,
              (if data_len + 1 ≤ block_size then data_len + 1 else block_size) = n ∧
              (data.drop copyed).take n = (data.drop copyed).take block_size ∧
              data.drop (copyed + n) = (data.drop copyed).drop block_size ∧
              n ≤ data_len + 1 ∧ 0 < n := by
            refine ⟨_, rfl, ?_⟩
            split
            · rename_i hlast
              refine ⟨?_, ?_, Nat.le_refl _, Nat.succ_pos _⟩
              · rw [List.take_of_length_le (by omega), List.take_of_length_le (by omega)]
              · rw [List.drop_eq_nil_of_le (by omega), List.drop_eq_nil_of_le (by omega)]
            · exact ⟨rfl, by rw [List.drop_drop], by omega, Nat.pos_of_ne_zero hbs⟩
          obtain ⟨s₁, hput, h₁⟩ := h.put hk (List.length_take_le block_size (data.drop copyed))
          have hsum : copyed + n + (data_len + 1 - n) = data.length := by omega
          obtain ⟨s', hrun, h'⟩ := ih h₁ (by omega) hsum
          refine ⟨s', ?_, ?_⟩
          · rw [Set.loop, h.size]
            · simp only [hn, htake, hput]
              exact hrun
            · simp
          · rw [pieces_eq_cons hbs hne, List.foldl_cons, ← hdrop]
            exact h'

theorem Filling.finish {k : Nat} {now : Int} {f : BlockLru.Fill}
    (h : Filling block_num block_size timeout k now s f) :
    Holds block_num block_size timeout s (f.finish k now) := by
  obtain ⟨chain, free, gs, blocks, hrep, -, hfree, hentries, hcur⟩ := h.rep
  refine ⟨h.num, h.size, h.time, chain, free, _, hrep, hfree, ?_⟩
  rw [List.map_append, hentries, BlockLru.Fill.finish, ← hcur]
  by_cases hb : blocks = [] <;> simp [pending, hb, entryOf]

theorem Holds.set (h : Holds block_num block_size timeout s t) (hbs : block_size ≠ 0)
    (now : Int) (k : Nat) (data : Bytes) :
    ∃ s', s.Set now k data = .ok ((t.set block_size now k data).1, s') ∧
      Holds block_num block_size timeout s' (t.set block_size now k data).2 := by
  by_cases hk : k = 0
  · exact ⟨s, by simp [Set, BlockLru.set, hk], by simpa [BlockLru.set, hk] using h⟩
  · obtain ⟨s₁, hdel, h₁⟩ := h.deleteHash k
    obtain ⟨chain, free, gs, hrep, hfree, hentries⟩ := h₁.rep
    have hnew : ∀ g ∈ gs, g.key ≠ k := by
      intro g hg
      have hmem : s₁.entryOf g ∈ (t.remove k).entries := hentries ▸ List.mem_map_of_mem hg
      exact (mem_withoutKey.mp hmem).2
    have hstart : Filling block_num block_size timeout k now s₁
        ⟨(t.remove k).free, (t.remove k).entries, []⟩ :=
      ⟨h₁.num, h₁.size, h₁.time, chain, free, gs, [], by simpa [pending] using hrep, hnew, hfree,
        hentries, rfl⟩
    obtain ⟨s', hrun, h'⟩ :=
      hstart.loop hk hbs (Nat.le_refl data.length) (Nat.zero_add data.length)
    refine ⟨s', ?_, ?_⟩
    · simp only [Set, BlockLru.set, hk, if_false, hdel, bind, Except.bind, hrun]
      rfl
    · simp only [BlockLru.set, hk, if_false]
      exact h'.finish

/-- The counters of `Get` are no part of the stored values. -/
theorem Rep.counted {chain : Nat → List Nat} {free : List Nat} {gs : List Group}
    (h : s.Rep chain free gs) (hit req : Nat) :
    Rep { s with m_total_hit := hit, m_total_req := req } chain free gs := by
  have hlru := h.inv.lru
  have hhash := h.inv.hash
  exact ⟨⟨⟨hlru.ring, hlru.head, hlru.tail, hlru.nodup⟩, h.inv.perm,
    ⟨hhash.linked, hhash.count, hhash.sorted, hhash.nodup, hhash.mem, hhash.free⟩,
    h.inv.idx, h.inv.len, h.inv.layout, h.inv.size⟩,
    h.keyed, h.free, h.used, h.uptime, h.distinct⟩

theorem Holds.counted (h : Holds block_num block_size timeout s t) (hit req : Nat) :
    Holds block_num block_size timeout { s with m_total_hit := hit, m_total_req := req } t := by
  obtain ⟨chain, free, gs, hrep, hfree, hentries⟩ := h.rep
  exact ⟨h.num, h.size, h.time, chain, free, gs, hrep.counted hit req, hfree, hentries⟩

/-- The loop of `Get` is `get`. -/
theorem Holds.getLoop (h : Holds block_num block_size timeout s t) (now : Int) (k : Nat) :
    ∃ s', Get.loop k now (s.m_block_num + 1) (s.m_hash (k % HASH_MASK)).m_head
        ERR_KEY_NO_EXIST [] s = .ok ((t.get timeout now k).1, s') ∧
      Holds block_num block_size timeout s' (t.get timeout now k).2 := by
  obtain ⟨chain, free, gs, hrep, hfree, hentries⟩ := h.rep
  by_cases hk : ∃ g ∈ gs, g.key = k
  · obtain ⟨g, hg, hgk⟩ := hk
    have hone : withKey Group.key k gs = [g] := withKey_eq_singleton hrep.distinct hg hgk
    have hentry : withKey Entry.key k t.entries = [s.entryOf g] := by
      rw [← hentries, withKey_entryOf, hone]
      rfl
    have hblocks : blocksOf (withKey Group.key k gs) = g.blocks := by
      rw [hone, blocksOf_singleton]
    by_cases hold : now - g.uptime > timeout
    · have hall : ∀ b ∈ g.blocks, s.expired now b := by
        intro b hb
        rwa [expired, hrep.uptime g hg b hb, h.time]
      obtain ⟨s', hdel, h'⟩ := h.deleteHash k
      have hget : t.get timeout now k = ((ERR_KEY_TIMEOUT, []), t.remove k) := by
        simp [BlockLru.get, hentry, entryOf, hold]
      rw [hget]
      refine ⟨s', ?_, h'⟩
      rw [hrep.timeOut hg hgk hall, hdel]
      rfl
    · have hall : ∀ b ∈ blocksOf (withKey Group.key k gs), ¬ s.expired now b := by
        intro b hb
        rw [hblocks] at hb
        rwa [expired, hrep.uptime g hg b hb, h.time]
      obtain ⟨s', hrun, hrep', hm⟩ := hrep.touch k now hall
      have hget : t.get timeout now k = ((ERR_OK, (g.blocks.map s.contents).flatten),
          ⟨t.free, withoutKey Entry.key k t.entries ++ withKey Entry.key k t.entries⟩) := by
        simp [BlockLru.get, hentry, entryOf, hold]
      rw [hget]
      refine ⟨s', ?_, hm.block_num.trans h.num, hm.block_size.trans h.size,
        hm.timeout.trans h.time, chain, free, _, hrep', hfree, ?_⟩
      · rw [hrun, hblocks, if_neg (hrep.used g hg).2, List.flatMap_def]
      · rw [← hentries, withKey_entryOf, withoutKey_entryOf, List.map_append]
        congr 1 <;> exact entryOf_congr fun b _ => by rw [hm.contents]
  · have hnone : ∀ g ∈ gs, g.key ≠ k := fun g hg e => hk ⟨g, hg, e⟩
    have hzero : withKey Group.key k gs = [] := withKey_eq_nil.mpr hnone
    obtain ⟨s', hrun, hrep', hm⟩ := hrep.touch k now (by simp [hzero, blocksOf])
    rw [hzero, withoutKey_eq_self.mpr hnone, List.append_nil] at hrep'
    have hget : t.get timeout now k = ((ERR_KEY_NO_EXIST, []), t) := by
      rw [BlockLru.get, ← hentries, withKey_entryOf, hzero]
      rfl
    rw [hget]
    refine ⟨s', ?_, hm.block_num.trans h.num, hm.block_size.trans h.size,
      hm.timeout.trans h.time, chain, free, gs, hrep', hfree, ?_⟩
    · rw [hrun, hzero]
      rfl
    · rw [← hentries]
      exact entryOf_congr fun b _ => by rw [hm.contents]

theorem Holds.get (h : Holds block_num block_size timeout s t) (now : Int) (k : Nat) :
    ∃ s', s.Get now k = .ok ((t.get timeout now k).1, s') ∧
      Holds block_num block_size timeout s' (t.get timeout now k).2 := by
  obtain ⟨s', hrun, h'⟩ := (h.counted s.m_total_hit (u32 (s.m_total_req + 1))).getLoop now k
  refine ⟨_, ?_, h'.counted (if (t.get timeout now k).1.1 = ERR_OK then u32 (s'.m_total_hit + 1)
    else s'.m_total_hit) s'.m_total_req⟩
  simp only [Get]
  rw [hrun]
  rfl

theorem Holds.del (h : Holds block_num block_size timeout s t) (k : Nat) :
    ∃ s', s.Del k = .ok (ERR_OK, s') ∧ Holds block_num block_size timeout s' (t.remove k) := by
  obtain ⟨s', hrun, h'⟩ := h.deleteHash k
  refine ⟨s', ?_, h'⟩
  simp only [Del, hrun]
  rfl

end Operations

/-! ## Calls -/

section Calls

variable {s s' : CShmCache} {now code : Int} {k : Nat} {data : Bytes}

theorem call_set_ok (h : s.Set now k data = .ok (code, s')) :
    s.call (.set now k data) = .ok (.ret code, s') := by
  simp only [CShmCache.call, h]
  rfl

theorem call_get_ok (h : s.Get now k = .ok ((code, data), s')) :
    s.call (.get now k) = .ok (.got code data, s') := by
  simp only [CShmCache.call, h]
  rfl

theorem call_del_ok (h : s.Del k = .ok (code, s')) :
    s.call (.del k) = .ok (.ret code, s') := by
  simp only [CShmCache.call, h]
  rfl

theorem call_check_ok (h : s.Check now = .ok s') : s.call (.check now) = .ok (.done, s') := by
  simp only [CShmCache.call, h]
  rfl

end Calls

end CShmCache

end CommonCc
