import CommonCc.Lib.Transition
import CommonCc.Utils.ShmCache.Invariant

/-!
# The cache is an LRU map

`Lru` is the purpose of the component: the stored values from the least recently
used one on, with room for a given number of blocks.  As long as every value fits
into the cache, the calls answer as the list does.
-/

namespace CommonCc

/-! ## The abstract map -/

structure LruEntry where
  key : Nat
  value : Bytes
  uptime : Int

namespace Lru

/-- The blocks the values take. -/
def load (block_size : Nat) (es : List LruEntry) : Nat :=
  (es.map fun e => pieceCount block_size e.value.length).sum

/-- Drop the least recently used entries until `need` more blocks fit. -/
def evict (block_num block_size need : Nat) : List LruEntry → List LruEntry
  | [] => []
  | e :: es =>
      if load block_size (e :: es) + need ≤ block_num then e :: es
      else evict block_num block_size need es

def set (block_num block_size : Nat) (es : List LruEntry) (now : Int) (k : Nat) (v : Bytes) :
    List LruEntry :=
  evict block_num block_size (pieceCount block_size v.length) (withoutKey LruEntry.key k es) ++
    [⟨k, v, now⟩]

def get (timeout : Nat) (es : List LruEntry) (now : Int) (k : Nat) :
    (Int × Bytes) × List LruEntry :=
  match withKey LruEntry.key k es with
  | [] => ((ERR_KEY_NO_EXIST, []), es)
  | e :: _ =>
      if now - e.uptime > timeout then ((ERR_KEY_TIMEOUT, []), withoutKey LruEntry.key k es)
      else ((ERR_OK, e.value), withoutKey LruEntry.key k es ++ withKey LruEntry.key k es)

def call (block_num block_size timeout : Nat) (es : List LruEntry) :
    CacheCall → CacheAnswer × List LruEntry
  | .set now k v => (.ret ERR_OK, set block_num block_size es now k v)
  | .get now k =>
      (.got (get timeout es now k).1.1 (get timeout es now k).1.2, (get timeout es now k).2)
  | .del k => (.ret ERR_OK, withoutKey LruEntry.key k es)
  | .check now => (.done, es.filter fun e => ¬ now - e.uptime > timeout)

/-- The calls of the map: `Set` of a value that fits, `Get` and `Del`. -/
def Admissible (block_num block_size : Nat) : CacheCall → Prop
  | .set _ k v => k ≠ 0 ∧ 1 ≤ v.length ∧ v.length ≤ block_num * block_size
  | .get _ _ => True
  | .del _ => True
  | .check _ => False

instance (block_num block_size : Nat) : DecidablePred (Admissible block_num block_size)
  | .set _ k v => inferInstanceAs
      (Decidable (k ≠ 0 ∧ 1 ≤ v.length ∧ v.length ≤ block_num * block_size))
  | .get _ _ => .isTrue trivial
  | .del _ => .isTrue trivial
  | .check _ => .isFalse id

/-- The value of a key, empty when there is none. -/
def valueOf (es : List LruEntry) (k : Nat) : Bytes :=
  (withKey LruEntry.key k es).flatMap LruEntry.value

@[simp] theorem load_nil (block_size : Nat) : load block_size [] = 0 := rfl

@[simp] theorem load_cons (block_size : Nat) (e : LruEntry) (es : List LruEntry) :
    load block_size (e :: es) = pieceCount block_size e.value.length + load block_size es := by
  simp [load]

@[simp] theorem load_append (block_size : Nat) (es es' : List LruEntry) :
    load block_size (es ++ es') = load block_size es + load block_size es' := by
  simp [load]

/-- What stays is what was used last. -/
theorem evict_suffix (block_num block_size need : Nat) (es : List LruEntry) :
    ∃ old, es = old ++ evict block_num block_size need es := by
  induction es with
  | nil => exact ⟨[], rfl⟩
  | cons e es ih =>
      rw [evict]
      split
      · exact ⟨[], rfl⟩
      · obtain ⟨old, h⟩ := ih
        exact ⟨e :: old, congrArg (e :: ·) h⟩

theorem load_evict {block_num need : Nat} (block_size : Nat) (hneed : need ≤ block_num)
    (es : List LruEntry) :
    load block_size (evict block_num block_size need es) + need ≤ block_num := by
  induction es with
  | nil => simpa [evict] using hneed
  | cons e es ih =>
      rw [evict]
      split
      · assumption
      · exact ih

end Lru

/-! ## Filling when the value fits -/

namespace BlockLru

/-- The blocks of several keys. -/
def load (es : List Entry) : Nat := (es.map fun e => e.chunks.length).sum

/-- The free blocks and the keys left once `need` blocks are free. -/
def room (need : Nat) : Nat → List Entry → Nat × List Entry
  | free, [] => (free, [])
  | free, e :: es =>
      if need ≤ free then (free, e :: es) else room need (free + e.chunks.length) es

theorem room_succ (need free : Nat) (es : List Entry) :
    room (need + 1) (free + 1) es = ((room need free es).1 + 1, (room need free es).2) := by
  induction es generalizing free with
  | nil => rfl
  | cons e es ih =>
      rw [room, room]
      by_cases h : need ≤ free
      · rw [if_pos h, if_pos (Nat.succ_le_succ h)]
      · rw [if_neg h, if_neg (fun hle => h (Nat.le_of_succ_le_succ hle)), Nat.add_right_comm, ih]

/-- A value that fits is stored whole, and no more keys go than it needs. -/
theorem foldl_put {chunks : List Bytes} {f : Fill} (hfit : chunks.length ≤ f.free + load f.entries)
    (hne : ∀ e ∈ f.entries, e.chunks ≠ []) :
    chunks.foldl Fill.put f = ⟨(room chunks.length f.free f.entries).1 - chunks.length,
      (room chunks.length f.free f.entries).2, f.cur ++ chunks⟩ := by
  induction chunks generalizing f with
  | nil =>
      obtain ⟨free, es, cur⟩ := f
      cases es <;> simp [room]
  | cons c chunks ih =>
      obtain ⟨free, es, cur⟩ := f
      rw [List.foldl_cons, List.length_cons]
      cases free with
      | succ n =>
          have hput : Fill.put ⟨n + 1, es, cur⟩ c = ⟨n, es, cur ++ [c]⟩ := rfl
          have hrest : chunks.length ≤ n + load es := by
            simp only [List.length_cons] at hfit
            omega
          rw [hput, ih (f := ⟨n, es, cur ++ [c]⟩) hrest hne, room_succ]
          simp
      | zero =>
          cases es with
          | nil => simp [load] at hfit
          | cons e es =>
              obtain ⟨he, hes⟩ := List.forall_mem_cons.mp hne
              obtain ⟨j, hj⟩ := Nat.exists_eq_succ_of_ne_zero (mt List.length_eq_zero_iff.mp he)
              have hput : Fill.put ⟨0, e :: es, cur⟩ c = ⟨j, es, cur ++ [c]⟩ := by
                simp [Fill.put, hj]
              have hroom : room (chunks.length + 1) 0 (e :: es) =
                  room (chunks.length + 1) (j + 1) es := by
                rw [room, if_neg (Nat.not_succ_le_zero _), hj, Nat.zero_add]
              simp only [load, List.map_cons, List.sum_cons, List.length_cons, hj] at hfit
              have hrest : chunks.length ≤ j + load es := by
                rw [load]
                omega
              rw [hput, ih (f := ⟨j, es, cur ++ [c]⟩) hrest hes, hroom, room_succ]
              simp

theorem fill_of_fits (t : BlockLru) (chunks : List Bytes)
    (hfit : chunks.length ≤ t.free + load t.entries) (hne : ∀ e ∈ t.entries, e.chunks ≠ []) :
    t.fill chunks = ⟨(room chunks.length t.free t.entries).1 - chunks.length,
      (room chunks.length t.free t.entries).2, chunks⟩ := by
  have h := foldl_put (f := ⟨t.free, t.entries, []⟩) hfit hne
  rwa [List.nil_append] at h

end BlockLru

/-! ## Values and their pieces -/

namespace Lru

/-- An entry cut into the pieces of its blocks. -/
def cut (block_size : Nat) (e : LruEntry) : Entry :=
  ⟨e.key, e.uptime, pieces block_size e.value⟩

/-- A list of values as the cache keeps it. -/
def toBlocks (block_num block_size : Nat) (es : List LruEntry) : BlockLru :=
  ⟨block_num - load block_size es, es.map (cut block_size)⟩

section

variable {block_num block_size : Nat} {es : List LruEntry}

theorem load_cut (hbs : block_size ≠ 0) (es : List LruEntry) :
    BlockLru.load (es.map (cut block_size)) = load block_size es := by
  rw [BlockLru.load, load, List.map_map]
  congr 1
  exact List.map_congr_left fun e _ => length_pieces hbs e.value

theorem withKey_cut (block_size k : Nat) (es : List LruEntry) :
    withKey Entry.key k (es.map (cut block_size)) =
      (withKey LruEntry.key k es).map (cut block_size) :=
  map_withKey (fun _ => rfl) k es

theorem withoutKey_cut (block_size k : Nat) (es : List LruEntry) :
    withoutKey Entry.key k (es.map (cut block_size)) =
      (withoutKey LruEntry.key k es).map (cut block_size) :=
  map_withoutKey (fun _ => rfl) k es

theorem load_split (block_size k : Nat) (es : List LruEntry) :
    load block_size (withKey LruEntry.key k es) + load block_size (withoutKey LruEntry.key k es) =
      load block_size es := by
  induction es with
  | nil => rfl
  | cons e es ih =>
      by_cases hk : e.key = k
      · have h1 : withKey LruEntry.key k (e :: es) = e :: withKey LruEntry.key k es :=
          List.filter_cons_of_pos (by simpa using hk)
        have h2 : withoutKey LruEntry.key k (e :: es) = withoutKey LruEntry.key k es :=
          List.filter_cons_of_neg (by simpa using hk)
        rw [h1, h2, load_cons, load_cons]
        omega
      · have h1 : withKey LruEntry.key k (e :: es) = withKey LruEntry.key k es :=
          List.filter_cons_of_neg (by simpa using hk)
        have h2 : withoutKey LruEntry.key k (e :: es) = e :: withoutKey LruEntry.key k es :=
          List.filter_cons_of_pos (by simpa using hk)
        rw [h1, h2, load_cons, load_cons]
        omega

theorem remove_toBlocks (hbs : block_size ≠ 0) (hload : load block_size es ≤ block_num) (k : Nat) :
    (toBlocks block_num block_size es).remove k =
      toBlocks block_num block_size (withoutKey LruEntry.key k es) := by
  have hsplit := load_split block_size k es
  have hsum := load_cut hbs (withKey LruEntry.key k es)
  rw [BlockLru.load] at hsum
  simp only [BlockLru.remove, toBlocks, withKey_cut, withoutKey_cut, hsum]
  congr 1
  omega

/-- Making room for a value is evicting. -/
theorem room_toBlocks (hbs : block_size ≠ 0) (hload : load block_size es ≤ block_num)
    (need : Nat) :
    BlockLru.room need (block_num - load block_size es) (es.map (cut block_size)) =
      (block_num - load block_size (evict block_num block_size need es),
        (evict block_num block_size need es).map (cut block_size)) := by
  induction es with
  | nil => rfl
  | cons e es ih =>
      rw [load_cons] at hload
      rw [List.map_cons, BlockLru.room, evict, load_cons]
      by_cases hfit : pieceCount block_size e.value.length + load block_size es + need ≤ block_num
      · rw [if_pos hfit, if_pos (by omega), load_cons]
        rfl
      · have hlen : (cut block_size e).chunks.length = pieceCount block_size e.value.length :=
          length_pieces hbs e.value
        rw [if_neg hfit, if_neg (by omega), hlen, ← ih (by omega)]
        congr 1
        omega

theorem set_toBlocks (hbs : block_size ≠ 0) (hload : load block_size es ≤ block_num)
    (hvalues : ∀ e ∈ es, e.value ≠ []) {k : Nat} (hk : k ≠ 0) (now : Int) {v : Bytes}
    (hv : v ≠ []) (hfit : v.length ≤ block_num * block_size) :
    (toBlocks block_num block_size es).set block_size now k v =
      (ERR_OK, toBlocks block_num block_size (set block_num block_size es now k v)) := by
  have hload' : load block_size (withoutKey LruEntry.key k es) ≤ block_num := by
    have := load_split block_size k es
    omega
  have hneed := (pieceCount_le_iff hbs).mpr hfit
  have hlen := length_pieces hbs v
  have hfill := BlockLru.fill_of_fits
    (toBlocks block_num block_size (withoutKey LruEntry.key k es)) (pieces block_size v) ?_ ?_
  · rw [toBlocks, hlen, room_toBlocks hbs hload'] at hfill
    have hcur : pieces block_size v ≠ [] := fun e => hv ((pieces_eq_nil_iff hbs).mp e)
    have hroom := load_evict block_size hneed (withoutKey LruEntry.key k es)
    rw [BlockLru.set, if_neg hk, remove_toBlocks hbs hload, toBlocks, hfill]
    simp only [BlockLru.Fill.finish, hcur, if_false, set, toBlocks, load_append, load_cons,
      load_nil, List.map_append, List.map_cons, List.map_nil, cut, Nat.add_zero]
    congr 2
    omega
  · have htotal := load_cut hbs (withoutKey LruEntry.key k es)
    simp only [toBlocks, htotal, hlen]
    omega
  · intro e he
    obtain ⟨a, ha, rfl⟩ := List.mem_map.mp he
    exact fun hnil => hvalues a (mem_withoutKey.mp ha).1 ((pieces_eq_nil_iff hbs).mp hnil)

theorem get_toBlocks (hbs : block_size ≠ 0) (hload : load block_size es ≤ block_num)
    (timeout : Nat) (now : Int) (k : Nat) :
    (toBlocks block_num block_size es).get timeout now k =
      ((get timeout es now k).1, toBlocks block_num block_size (get timeout es now k).2) := by
  have hkey := withKey_cut block_size k es
  have hrest := withoutKey_cut block_size k es
  have hsplit := load_split block_size k es
  have hentries : (toBlocks block_num block_size es).entries = es.map (cut block_size) := rfl
  cases hk : withKey LruEntry.key k es with
  | nil =>
      rw [hk, List.map_nil] at hkey
      rw [BlockLru.get, get, hentries, hkey, hk]
  | cons e rest =>
      rw [hk, List.map_cons] at hkey
      rw [BlockLru.get, get, hentries, hkey, hk]
      have hup : (cut block_size e).uptime = e.uptime := rfl
      have hvalue : (cut block_size e).chunks.flatten = e.value := flatten_pieces hbs e.value
      simp only [hup, hvalue]
      split
      · rw [remove_toBlocks hbs hload]
      · rw [hk] at hsplit
        simp only [toBlocks, hrest, load_append, List.map_append, List.map_cons]
        congr 3
        omega

/-! ## One call of the map -/

theorem withKey_evict (block_num block_size need : Nat) (hdistinct : (es.map LruEntry.key).Nodup)
    (k : Nat) :
    withKey LruEntry.key k (evict block_num block_size need es) = withKey LruEntry.key k es ∨
      withKey LruEntry.key k (evict block_num block_size need es) = [] := by
  obtain ⟨old, hold⟩ := evict_suffix block_num block_size need es
  generalize evict block_num block_size need es = kept at *
  subst hold
  rw [withKey_append]
  by_cases hk : withKey LruEntry.key k old = []
  · exact .inl (by rw [hk, List.nil_append])
  · right
    obtain ⟨e, he⟩ := List.exists_mem_of_ne_nil _ hk
    obtain ⟨he, hek⟩ := mem_withKey.mp he
    rw [List.map_append] at hdistinct
    refine withKey_eq_nil.mpr fun a ha hak => ?_
    exact (List.nodup_append.mp hdistinct).2.2 _ (List.mem_map_of_mem he) _
      (List.mem_map_of_mem ha) (hek.trans hak.symm)

/-- The keys stay distinct, the values not empty, and the blocks suffice. -/
structure Valid (block_num block_size : Nat) (es : List LruEntry) : Prop where
  distinct : (es.map LruEntry.key).Nodup
  load_le : load block_size es ≤ block_num
  value_ne : ∀ e ∈ es, e.value ≠ []

theorem Valid.without (h : Valid block_num block_size es) (k : Nat) :
    Valid block_num block_size (withoutKey LruEntry.key k es) := by
  refine ⟨nodup_map_withoutKey h.distinct k, ?_, fun e he => h.value_ne e (mem_withoutKey.mp he).1⟩
  have := load_split block_size k es
  have := h.load_le
  omega

theorem Valid.set (h : Valid block_num block_size es) (hbs : block_size ≠ 0) (now : Int) (k : Nat)
    {v : Bytes} (hv : v ≠ []) (hfit : v.length ≤ block_num * block_size) :
    Valid block_num block_size (set block_num block_size es now k v) := by
  have hwithout := h.without k
  have hneed := (pieceCount_le_iff hbs).mpr hfit
  have hroom := load_evict block_size hneed (withoutKey LruEntry.key k es)
  obtain ⟨old, hold⟩ := evict_suffix block_num block_size (pieceCount block_size v.length)
    (withoutKey LruEntry.key k es)
  have hkept : ∀ e ∈ evict block_num block_size (pieceCount block_size v.length)
      (withoutKey LruEntry.key k es), e ∈ withoutKey LruEntry.key k es := by
    intro e he
    rw [hold]
    exact List.mem_append_right old he
  refine ⟨?_, ?_, ?_⟩
  · rw [Lru.set, List.map_append]
    refine List.nodup_append.mpr ⟨?_, List.nodup_singleton _, ?_⟩
    · have hdistinct := hwithout.distinct
      rw [hold, List.map_append] at hdistinct
      exact (List.nodup_append.mp hdistinct).2.1
    · intro a ha b hb
      obtain ⟨e, he, rfl⟩ := List.mem_map.mp ha
      obtain rfl : b = k := by simpa using hb
      exact (mem_withoutKey.mp (hkept e he)).2
  · rw [Lru.set, load_append, load_cons, load_nil]
    omega
  · intro e he
    rcases List.mem_append.mp he with he | he
    · exact hwithout.value_ne e (hkept e he)
    · obtain rfl := List.mem_singleton.mp he
      exact hv

theorem Valid.get (h : Valid block_num block_size es) (timeout : Nat) (now : Int) (k : Nat) :
    Valid block_num block_size (get timeout es now k).2 := by
  rw [Lru.get]
  split
  · exact h
  · split
    · exact h.without k
    · refine ⟨nodup_map_touch h.distinct k, ?_, fun e he => h.value_ne e ?_⟩
      · have := load_split block_size k es
        have := h.load_le
        rw [load_append]
        omega
      · rcases List.mem_append.mp he with he | he
        · exact (mem_withoutKey.mp he).1
        · exact (mem_withKey.mp he).1

/-- A call for another key leaves the value of `k` as it is, or drops it. -/
theorem valueOf_call (h : Valid block_num block_size es) (timeout : Nat) {c : CacheCall}
    (hc : Admissible block_num block_size c) {k : Nat} (hk : c.key ≠ some k) :
    valueOf (call block_num block_size timeout es c).2 k = valueOf es k ∨
      valueOf (call block_num block_size timeout es c).2 k = [] := by
  have hother : ∀ {k'}, some k' ≠ some k → k ≠ k' := fun hne e => hne (by rw [e])
  cases c with
  | set now key v =>
      have hne := hother hk
      have hnew : withKey LruEntry.key k [(⟨key, v, now⟩ : LruEntry)] = [] :=
        withKey_eq_nil.mpr (by simpa using hne.symm)
      simp only [call, set, valueOf, withKey_append, hnew, List.append_nil]
      rcases withKey_evict block_num block_size (pieceCount block_size v.length)
        (h.without key).distinct k with hsame | hgone
      · rw [hsame, withKey_withoutKey_of_ne hne]
        exact .inl rfl
      · rw [hgone]
        exact .inr rfl
  | get now key =>
      left
      simp only [call, get, valueOf]
      split
      · rfl
      · split
        · rw [withKey_withoutKey_of_ne (hother hk)]
        · rw [withKey_touch]
  | del key =>
      left
      simp only [call, valueOf]
      rw [withKey_withoutKey_of_ne (hother hk)]
  | check now => exact absurd hc id

end

end Lru

/-! ## The cache and its values -/

namespace CShmCache

/-- Every block is free or holds a piece of a value. -/
theorem Holds.total {block_num block_size timeout : Nat} {s : CShmCache} {t : BlockLru}
    (h : Holds block_num block_size timeout s t) :
    t.free + BlockLru.load t.entries = block_num ∧ ∀ e ∈ t.entries, e.chunks ≠ [] := by
  obtain ⟨chain, free, gs, hrep, hfree, hentries⟩ := h.rep
  constructor
  · have hlen := hrep.inv.perm.length_eq
    rw [List.length_append, List.length_range, h.num, blocksOf, List.length_flatMap] at hlen
    rw [← hfree, ← hentries, BlockLru.load, List.map_map, ← hlen]
    simp [Function.comp_def, entryOf]
  · intro e he
    rw [← hentries] at he
    obtain ⟨g, hg, rfl⟩ := List.mem_map.mp he
    simpa [entryOf] using (hrep.used g hg).2

/-- The value of a key in the cache: what its blocks hold, in chain order. -/
def valueOf (s : CShmCache) (k : Nat) : Bytes :=
  (withKey s.key k (followLinks s.hashNext s.m_block_num
    (s.m_hash (k % HASH_MASK)).m_head)).flatMap s.contents

/-- The cache stores the values of `es`. -/
structure Stores (block_num block_size timeout : Nat) (s : CShmCache) (es : List LruEntry) :
    Prop where
  holds : Holds block_num block_size timeout s (Lru.toBlocks block_num block_size es)
  valid : Lru.Valid block_num block_size es

variable {block_num block_size timeout : Nat}

theorem Stores.valueOf {s : CShmCache} {es : List LruEntry}
    (h : Stores block_num block_size timeout s es) (hbs : block_size ≠ 0) (k : Nat) :
    s.valueOf k = Lru.valueOf es k := by
  obtain ⟨chain, free, gs, hrep, -, hentries⟩ := h.holds.rep
  have hm := mod_HASH_MASK_lt k
  have hfollow := (hrep.inv.hash.linked _ hm).follow (hrep.inv.hash.length_le hm)
  have hkeyed : (withKey LruEntry.key k es).map (Lru.cut block_size) =
      (withKey Group.key k gs).map s.entryOf := by
    rw [← Lru.withKey_cut, ← withKey_entryOf, hentries]
    rfl
  have hflat := congrArg (List.flatMap fun e : Entry => e.chunks.flatten) hkeyed
  rw [List.flatMap_map, List.flatMap_map] at hflat
  have hleft : (fun e : LruEntry => (Lru.cut block_size e).chunks.flatten) = LruEntry.value :=
    funext fun e => flatten_pieces hbs e.value
  have hright : (fun g : Group => (s.entryOf g).chunks.flatten) =
      fun g => g.blocks.flatMap s.contents :=
    funext fun g => List.flatMap_def.symm
  rw [hleft, hright] at hflat
  rw [CShmCache.valueOf, hfollow, hrep.keyed, blocksOf, List.flatMap_assoc, Lru.valueOf, hflat]

/-- One call does what it does to the map. -/
theorem call_refines (hbs : block_size ≠ 0) :
    Simulates CShmCache.call (Lru.call block_num block_size timeout)
      (Stores block_num block_size timeout) (Lru.Admissible block_num block_size) := by
  intro s es c h hc
  cases c with
  | set now k v =>
      obtain ⟨hk, hpos, hfit⟩ := hc
      have hv : v ≠ [] := List.length_pos_iff.mp hpos
      obtain ⟨s', hrun, h'⟩ := h.holds.set hbs now k v
      rw [Lru.set_toBlocks hbs h.valid.load_le h.valid.value_ne hk now hv hfit] at hrun h'
      exact ⟨s', call_set_ok hrun, h', h.valid.set hbs now k hv hfit⟩
  | get now k =>
      obtain ⟨s', hrun, h'⟩ := h.holds.get now k
      rw [Lru.get_toBlocks hbs h.valid.load_le] at hrun h'
      exact ⟨s', call_get_ok hrun, h', h.valid.get timeout now k⟩
  | del k =>
      obtain ⟨s', hrun, h'⟩ := h.holds.del k
      rw [Lru.remove_toBlocks hbs h.valid.load_le] at h'
      exact ⟨s', call_del_ok hrun, h', h.valid.without k⟩
  | check now => exact absurd hc id

theorem Init_stores (s : CShmCache) (timeout : Nat) (hn : block_num ≠ 0) (hfit : LayoutFits block_num block_size) :
    Stores block_num block_size timeout (s.Init block_num block_size timeout) [] :=
  ⟨Init_holds s hn hfit, List.nodup_nil, Nat.zero_le _, by simp⟩

/-- In every run of `Set`, `Get` and `Del` calls from a fresh cache, the answers are those
of the LRU map, and the cache ends with its values; one more call keeps the value of every
other key or drops it. -/
theorem calls_refine_lru (s : CShmCache) (hn : 1 ≤ block_num) (hbs : 1 ≤ block_size)
    (hfit : LayoutFits block_num block_size) {calls : List CacheCall}
    (hcalls : ∀ c ∈ calls, Lru.Admissible block_num block_size c) :
    ∃ s', runCalls CShmCache.call (s.Init block_num block_size timeout) calls =
        .ok ((runSpec (Lru.call block_num block_size timeout) [] calls).1, s') ∧
      (∀ k, s'.valueOf k =
        Lru.valueOf (runSpec (Lru.call block_num block_size timeout) [] calls).2 k) ∧
      ∀ c, Lru.Admissible block_num block_size c → ∃ answer s'', s'.call c = .ok (answer, s'') ∧
        ∀ k, c.key ≠ some k → s''.valueOf k = s'.valueOf k ∨ s''.valueOf k = [] := by
  have hbs' : block_size ≠ 0 := Nat.ne_of_gt hbs
  obtain ⟨s', hrun, h'⟩ := (call_refines hbs').run
    (Init_stores s timeout (Nat.ne_of_gt hn) hfit) hcalls
  refine ⟨s', hrun, h'.valueOf hbs', fun c hc => ?_⟩
  obtain ⟨s'', hcall, h''⟩ := call_refines hbs' s' _ c h' hc
  refine ⟨_, s'', hcall, fun k hk => ?_⟩
  rw [h''.valueOf hbs', h'.valueOf hbs']
  exact Lru.valueOf_call h'.valid timeout hc hk

theorem calls_refine_lru_three :
    ∃ s', runCalls CShmCache.call (fresh.Init 3 2 60)
        [.set 0 5 [1, 2, 3], .set 1 65541 [9], .get 2 5, .set 3 7 [8, 8, 8], .get 4 5] =
      .ok ([.ret 0, .ret 0, .got 0 [1, 2, 3], .ret 0, .got (-1) []], s') := by
  have hfit : LayoutFits 3 2 := by
    unfold LayoutFits HASH_MASK
    omega
  have hcalls : ∀ c ∈ ([.set 0 5 [1, 2, 3], .set 1 65541 [9], .get 2 5, .set 3 7 [8, 8, 8],
      .get 4 5] : List CacheCall), Lru.Admissible 3 2 c := by decide
  obtain ⟨s', hrun, -⟩ :=
    @calls_refine_lru 3 2 60 fresh (by decide) (by decide) hfit _ hcalls
  exact ⟨s', hrun⟩

end CShmCache

end CommonCc
