import CommonCc.Utils.ShmCache.Lru

/-!
# Values longer than the cache

`Set` of a value that needs more blocks than there are evicts the blocks it has just
written.  What stays readable is the end of the value.
-/

namespace CommonCc

namespace BlockLru

/-- In the middle of a `Set` every block is free, in an entry or in the new value. -/
structure Fill.Total (block_num : Nat) (f : Fill) : Prop where
  total : f.free + load f.entries + f.cur.length = block_num
  chunks_ne : ∀ e ∈ f.entries, e.chunks ≠ []

theorem Fill.Total.put {block_num : Nat} {f : Fill} (h : f.Total block_num) (hn : block_num ≠ 0)
    (chunk : Bytes) : (f.put chunk).Total block_num := by
  obtain ⟨free, es, cur⟩ := f
  have htotal := h.total
  have hne := h.chunks_ne
  cases free with
  | succ n =>
      refine ⟨?_, hne⟩
      simp only [Fill.put, List.length_append, List.length_singleton] at htotal ⊢
      omega
  | zero =>
      cases es with
      | nil =>
          refine ⟨?_, by simp [Fill.put]⟩
          simp only [Fill.put, load, List.map_nil, List.sum_nil, List.length_singleton] at htotal ⊢
          omega
      | cons e es =>
          obtain ⟨he, hes⟩ := List.forall_mem_cons.mp hne
          have hpos := List.length_pos_iff.mpr he
          refine ⟨?_, hes⟩
          simp only [Fill.put, load, List.map_cons, List.sum_cons, List.length_append,
            List.length_singleton] at htotal ⊢
          omega

theorem Fill.put_spec (f : Fill) (chunk : Bytes) :
    (f.put chunk).cur <:+ f.cur ++ [chunk] ∧ (f.put chunk).cur ≠ [] ∧
      ∀ e ∈ (f.put chunk).entries, e ∈ f.entries := by
  obtain ⟨free, es, cur⟩ := f
  cases free with
  | succ n => exact ⟨List.suffix_rfl, by simp [Fill.put], fun e he => he⟩
  | zero =>
      cases es with
      | nil => exact ⟨List.suffix_append cur [chunk], by simp [Fill.put], fun e he => he⟩
      | cons e es =>
          exact ⟨List.suffix_rfl, by simp [Fill.put], fun a ha => List.mem_cons_of_mem e ha⟩

/-- The value being written is the end of what was written, and other keys only go. -/
theorem foldl_put_spec {block_num : Nat} (hn : block_num ≠ 0) (chunks : List Bytes) {f : Fill}
    (h : f.Total block_num) :
    (chunks.foldl Fill.put f).Total block_num ∧
      (chunks.foldl Fill.put f).cur <:+ f.cur ++ chunks ∧
      (f.cur ++ chunks ≠ [] → (chunks.foldl Fill.put f).cur ≠ []) ∧
      ∀ e ∈ (chunks.foldl Fill.put f).entries, e ∈ f.entries := by
  induction chunks generalizing f with
  | nil => exact ⟨h, by simp, by simp, fun e he => he⟩
  | cons c chunks ih =>
      obtain ⟨hsuffix, hne, hentries⟩ := f.put_spec c
      obtain ⟨h', hsuffix', hne', hentries'⟩ := ih (h.put hn c)
      refine ⟨h', hsuffix'.trans ?_, fun _ => hne' (by simp [hne]), fun e he => ?_⟩
      · obtain ⟨pre, hpre⟩ := hsuffix
        refine ⟨pre, ?_⟩
        rw [← List.append_assoc, hpre, List.append_assoc, List.singleton_append]
      · exact hentries e (hentries' e he)

/-- The state in which `Set` starts to write. -/
theorem Fill.Total.start {block_num : Nat} {t : BlockLru}
    (htotal : t.free + load t.entries = block_num) (hne : ∀ e ∈ t.entries, e.chunks ≠ []) :
    Fill.Total block_num ⟨t.free, t.entries, []⟩ :=
  ⟨by simpa using htotal, hne⟩

/-- `Get` of a key that was just written. -/
theorem get_finish {timeout k : Nat} {t₀ t₁ : Int} {f : Fill}
    (hnone : withKey Entry.key k f.entries = []) (hnow : t₁ - t₀ ≤ timeout) :
    ((f.finish k t₀).get timeout t₁ k).1 =
      if f.cur = [] then (ERR_KEY_NO_EXIST, []) else (ERR_OK, f.cur.flatten) := by
  rw [get, Fill.finish, withKey_append, hnone, List.nil_append]
  by_cases hcur : f.cur = []
  · simp [hcur, withKey]
  · have hone : withKey Entry.key k [(⟨k, t₀, f.cur⟩ : Entry)] = [⟨k, t₀, f.cur⟩] :=
      withKey_eq_self.mpr (by simp)
    rw [if_neg hcur, if_neg hcur, hone]
    simp only
    rw [if_neg (Int.not_lt.mpr hnow)]

/-- The end of a value is the value only when nothing is missing. -/
theorem suffix_eq_of_flatten {n : Nat} (hn : n ≠ 0) {data : Bytes} {cur : List Bytes}
    (hsuffix : cur <:+ pieces n data) (hflat : cur.flatten = data) : cur = pieces n data := by
  obtain ⟨pre, hpre⟩ := hsuffix
  have hall := flatten_pieces hn data
  rw [← hpre, List.flatten_append, hflat] at hall
  have hnil : pre.flatten = [] := by simpa using hall
  cases pre with
  | nil => exact hpre
  | cons p pre =>
      have hp : p ≠ [] := ne_nil_of_mem_pieces (n := n) (l := data) (by simp [← hpre])
      simp [hp] at hnil

/-- A `Get` right after a `Set` of a key. -/
theorem get_set {block_num block_size timeout k : Nat} {t : BlockLru} {t₀ t₁ : Int} {data : Bytes}
    (hn : block_num ≠ 0) (hbs : block_size ≠ 0)
    (htotal : (t.remove k).free + load (t.remove k).entries = block_num)
    (hne : ∀ e ∈ (t.remove k).entries, e.chunks ≠ []) (hk : k ≠ 0) (hnow : t₁ - t₀ ≤ timeout) :
    (((t.set block_size t₀ k data).2.get timeout t₁ k).1 = (ERR_OK, data) ∨
        ((t.set block_size t₀ k data).2.get timeout t₁ k).1.1 = ERR_KEY_NO_EXIST) ↔
      data.length ≤ block_num * block_size := by
  have hspec := foldl_put_spec hn (pieces block_size data) (Fill.Total.start htotal hne)
  have hfits := fill_of_fits (t.remove k) (pieces block_size data)
  rw [set, if_neg hk, ← pieceCount_le_iff hbs, ← length_pieces hbs]
  change Fill.Total _ (fill _ _) ∧ (fill _ _).cur <:+ _ ∧ (_ → (fill _ _).cur ≠ []) ∧
    ∀ e ∈ (fill _ _).entries, _ at hspec
  generalize (t.remove k).fill (pieces block_size data) = f at hspec hfits ⊢
  obtain ⟨hall, hsuffix, hcur, hentries⟩ := hspec
  rw [List.nil_append] at hsuffix hcur
  have hnone : withKey Entry.key k f.entries = [] :=
    withKey_eq_nil.mpr fun e he => (mem_withoutKey.mp (hentries e he)).2
  simp only [get_finish hnone hnow]
  by_cases hdata : pieces block_size data = []
  · have hzero : f.cur = [] := by simpa [hdata] using hsuffix
    simp [hzero, hdata]
  · rw [if_neg (hcur hdata)]
    constructor
    · rintro (hok | habsent)
      · have hflat : f.cur.flatten = data := congrArg Prod.snd hok
        rw [← suffix_eq_of_flatten hbs hsuffix hflat]
        have := hall.total
        omega
      · have hne : ERR_OK ≠ ERR_KEY_NO_EXIST := by decide
        exact absurd habsent hne
    · intro hfit
      have hwhole := hfits (by omega) hne
      left
      rw [hwhole, flatten_pieces hbs]

end BlockLru

namespace CShmCache

/-- In every reachable state, a `Get` within the timeout after a `Set` gives exactly the
data or finds no key if and only if the data is not longer than all blocks together. -/
theorem get_after_set_iff (s₀ : CShmCache) {block_num block_size timeout : Nat}
    (hn : 1 ≤ block_num) (hbs : 1 ≤ block_size) (hfit : LayoutFits block_num block_size)
    (calls : List CacheCall) {key : Nat} (hkey : key ≠ 0) (data : Bytes) {t₀ t₁ : Int}
    (hnow : t₁ - t₀ ≤ timeout) :
    ∃ answers s s₁ s₂ code out,
      runCalls CShmCache.call (s₀.Init block_num block_size timeout) calls = .ok (answers, s) ∧
      s.Set t₀ key data = .ok (ERR_OK, s₁) ∧ s₁.Get t₁ key = .ok ((code, out), s₂) ∧
      ((code = ERR_OK ∧ out = data ∨ code = ERR_KEY_NO_EXIST) ↔
        data.length ≤ block_num * block_size) := by
  have hn' : block_num ≠ 0 := Nat.ne_of_gt hn
  have hbs' : block_size ≠ 0 := Nat.ne_of_gt hbs
  obtain ⟨answers, s, hrun, t, h⟩ := run_holds s₀ timeout hn' hbs' hfit calls
  obtain ⟨s₁, hset, h₁⟩ := h.set hbs' t₀ key data
  obtain ⟨s₂, hget, -⟩ := h₁.get t₁ key
  obtain ⟨s', -, hdel⟩ := h.deleteHash key
  have hcode : (t.set block_size t₀ key data).1 = ERR_OK := by rw [BlockLru.set, if_neg hkey]
  rw [hcode] at hset
  refine ⟨answers, s, s₁, s₂, _, _, hrun, hset, hget, ?_⟩
  rw [← BlockLru.get_set hn' hbs' hdel.total.1 hdel.total.2 hkey hnow, Prod.ext_iff]

theorem get_after_set_iff_two :
    ∃ answers s s₁ s₂ code out,
      runCalls CShmCache.call (fresh.Init 2 1 60) [.set 0 9 [1, 2, 3]] = .ok (answers, s) ∧
      s.Set 1 7 [4, 5] = .ok (ERR_OK, s₁) ∧ s₁.Get 2 7 = .ok ((code, out), s₂) ∧
      ((code = ERR_OK ∧ out = [4, 5] ∨ code = ERR_KEY_NO_EXIST) ↔ 2 ≤ 2 * 1) :=
  get_after_set_iff fresh (by decide) (by decide) (by unfold LayoutFits HASH_MASK; omega)
    [.set 0 9 [1, 2, 3]] (by decide) [4, 5] (by decide)

/-- With one block of one byte, the second byte takes the place of the first. -/
theorem oversize_value_is_cut :
    ∃ s₁ s₂, (fresh.Init 1 1 60).Set 0 7 [1, 2] = .ok (ERR_OK, s₁) ∧
      s₁.Get 0 7 = .ok ((ERR_OK, [2]), s₂) := by
  have hrun : ((fresh.Init 1 1 60).Set 0 7 [1, 2]).toOption.bind (fun r =>
      (r.2.Get 0 7).toOption.map fun q => (r.1, q.1)) = some (ERR_OK, (ERR_OK, [2])) := by
    decide +kernel
  obtain ⟨⟨code, s₁⟩, hset, hget⟩ := Option.bind_eq_some_iff.mp hrun
  obtain ⟨⟨answer, s₂⟩, hget, hcodes⟩ := Option.map_eq_some_iff.mp hget
  obtain ⟨rfl, rfl⟩ := Prod.mk.inj hcodes
  exact ⟨s₁, s₂, ok_of_toOption hset, ok_of_toOption hget⟩

end CShmCache

end CommonCc
