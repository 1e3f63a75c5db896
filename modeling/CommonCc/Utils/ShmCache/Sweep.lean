import CommonCc.Utils.ShmCache.BlockLru

/-!
# What `Check` removes

The walk of `Check` takes the next block of the chain before it deletes a key.  When
the key has several blocks, that block is free by the time the walk stands on it, and
the walk leaves the bucket: old keys behind it stay.
-/

namespace CommonCc

namespace CShmCache

instance (s : CShmCache) (now : Int) (b : Nat) : Decidable (s.expired now b) :=
  inferInstanceAs (Decidable (_ > _))

/-- The keys that the walk deletes on its way along the blocks of a chain. -/
def Check.swept (s : CShmCache) (now : Int) : List Nat → List Nat
  | [] => []
  | c :: ys =>
      if s.expired now c then
        s.key c :: if ys.head?.map s.key = some (s.key c) then [] else Check.swept s now ys
      else Check.swept s now ys

/-- What the deletion of other keys leaves as it was. -/
structure Kept (s s' : CShmCache) (gs : List Group) : Prop where
  block_num : s'.m_block_num = s.m_block_num
  block_size : s'.m_block_size = s.m_block_size
  timeout : s'.m_timeout = s.m_timeout
  key : ∀ b ∈ blocksOf gs, s'.key b = s.key b
  contents : ∀ b ∈ blocksOf gs, s'.contents b = s.contents b
  uptime : ∀ b, (s'.m_block b).m_uptime = (s.m_block b).m_uptime

section Walk

variable {s s' s'' : CShmCache} {chain : Nat → List Nat} {free : List Nat} {gs gs' : List Group}

theorem Kept.refl (s : CShmCache) (gs : List Group) : Kept s s gs :=
  ⟨rfl, rfl, rfl, fun _ _ => rfl, fun _ _ => rfl, fun _ => rfl⟩

theorem mem_blocksOf_filter {p : Group → Bool} {b : Nat} (h : b ∈ blocksOf (gs.filter p)) :
    b ∈ blocksOf gs := by
  obtain ⟨g, hg, hb⟩ := List.mem_flatMap.mp h
  exact List.mem_flatMap.mpr ⟨g, (List.mem_filter.mp hg).1, hb⟩

theorem Kept.trans (h : Kept s s' gs) (h' : Kept s' s'' gs') (hsub : ∀ b ∈ blocksOf gs',
    b ∈ blocksOf gs) : Kept s s'' gs' :=
  ⟨h'.block_num.trans h.block_num, h'.block_size.trans h.block_size, h'.timeout.trans h.timeout,
    fun b hb => (h'.key b hb).trans (h.key b (hsub b hb)),
    fun b hb => (h'.contents b hb).trans (h.contents b (hsub b hb)),
    fun b => (h'.uptime b).trans (h.uptime b)⟩

theorem Kept.expired (h : Kept s s' gs) (now : Int) (b : Nat) :
    s'.expired now b ↔ s.expired now b := by
  rw [CShmCache.expired, CShmCache.expired, h.uptime, h.timeout]

/-- `DeleteHash` leaves the other keys as they are. -/
theorem Rep.delete_kept (h : s.Rep chain free gs) (k : Nat) :
    ∃ s' free', s.DeleteHash k = .ok s' ∧
      s'.Rep (Function.update chain (k % HASH_MASK) (withoutKey s.key k (chain (k % HASH_MASK))))
        free' (withoutKey Group.key k gs) ∧
      Kept s s' (withoutKey Group.key k gs) ∧ ∀ b, s.key b = k → b ∈ chain (k % HASH_MASK) →
        s'.key b = 0 := by
  obtain ⟨s', hrun, hrep, hf⟩ := h.deleteHash k
  have hother : ∀ b ∈ blocksOf (withoutKey Group.key k gs),
      b ∉ blocksOf (withKey Group.key k gs) := fun b hb => h.notMem_withKey k hb
  refine ⟨s', _, hrun, hrep, ⟨hf.block_num, hf.block_size, hf.timeout, fun b hb => ?_,
    fun b hb => hf.contents (hother b hb), hf.uptime⟩, fun b hb hmem => ?_⟩
  · rw [hf.key, if_neg (hother b hb)]
  · rw [hf.key, if_pos]
    rw [← h.keyed]
    exact mem_withKey.mpr ⟨hmem, hb⟩

/-- Deleting the key of free blocks changes nothing. -/
theorem Rep.without_zero (h : s.Rep chain free gs) : withoutKey Group.key 0 gs = gs :=
  withoutKey_eq_self.mpr fun g hg => (h.used g hg).1

theorem filter_cons_keys (k : Nat) (ks : List Nat) (gs : List Group) :
    gs.filter (fun g => g.key ∉ k :: ks) =
      (withoutKey Group.key k gs).filter fun g => g.key ∉ ks := by
  rw [withoutKey, List.filter_filter]
  apply List.filter_congr
  intro g _
  by_cases hk : g.key = k <;> simp [hk]

/-- The walk at a block that was freed a moment ago. -/
theorem Rep.walk_free (h : s.Rep chain free gs) (now : Int) (fuel : Nat) {c : Nat}
    (hc : c < s.m_block_num) (hfree : s.key c = 0) :
    ∃ s' chain' free', Check.walk now (fuel + 1) (some c) s = .ok s' ∧
      s'.Rep chain' free' gs ∧ Kept s s' gs := by
  have hnext : (s.m_block c).m_next = none := h.inv.hash.free c hc hfree
  have hzero : (s.m_block c).m_key = 0 := hfree
  rw [Check.walk]
  simp only [hnext, hzero]
  split
  · obtain ⟨s', free', hdel, hrep, hkept, -⟩ := h.delete_kept 0
    rw [h.without_zero] at hrep hkept
    exact ⟨s', _, free', by rw [hdel]; simp [Check.walk, bind, Except.bind], hrep, hkept⟩
  · exact ⟨s, chain, free, by simp [Check.walk], h, .refl s gs⟩

/-- A block in a chain belongs to the group of its key. -/
theorem Rep.mem_group (h : s.Rep chain free gs) {k b : Nat} (hk : k < HASH_MASK)
    (hb : b ∈ chain k) : ∃ g ∈ gs, b ∈ g.blocks ∧ g.key = s.key b := by
  have hbk := ((h.inv.hash.mem k hk b).mp hb).2.2
  have hmem : b ∈ withKey s.key (s.key b) (chain (s.key b % HASH_MASK)) :=
    mem_withKey.mpr ⟨hbk.symm ▸ hb, rfl⟩
  rw [h.keyed] at hmem
  obtain ⟨g, hg, hgb⟩ := List.mem_flatMap.mp hmem
  obtain ⟨hg, hkey⟩ := mem_withKey.mp hg
  exact ⟨g, hg, hgb, hkey⟩

/-- Behind the last block of a key all keys are larger. -/
theorem lt_of_sorted {key : Nat → Nat} {c : Nat} {ys : List Nat} (h : SortedBy key (c :: ys))
    (hlast : ys.head?.map key ≠ some (key c)) : ∀ b ∈ ys, key c < key b := by
  obtain ⟨hc, hys⟩ := List.pairwise_cons.mp h
  cases ys with
  | nil => simp
  | cons y ys =>
      have hne : key y ≠ key c := fun e => hlast (by simp [e])
      have hlt : key c < key y := Nat.lt_of_le_of_ne (hc y List.mem_cons_self) hne.symm
      intro b hb
      rcases List.mem_cons.mp hb with rfl | hb
      · exact hlt
      · exact Nat.lt_of_lt_of_le hlt ((List.pairwise_cons.mp hys).1 b hb)

theorem Check.swept_congr (now : Int) {l : List Nat}
    (hkey : ∀ b ∈ l, s'.key b = s.key b) (hold : ∀ b, s'.expired now b ↔ s.expired now b) :
    Check.swept s' now l = Check.swept s now l := by
  induction l with
  | nil => rfl
  | cons c ys ih =>
      obtain ⟨hc, hys⟩ := List.forall_mem_cons.mp hkey
      have hhead : ys.head?.map s'.key = ys.head?.map s.key := by
        cases ys with
        | nil => rfl
        | cons y ys => simp [hys y List.mem_cons_self]
      simp only [Check.swept, hold, hc, hhead, ih hys]

/-- The walk of `Check` along the rest of a chain. -/
theorem Rep.walk (h : s.Rep chain free gs) (now : Int) {k fuel : Nat} (hk : k < HASH_MASK)
    {xs ys : List Nat} (hsplit : chain k = xs ++ ys) (hfuel : ys.length < fuel) :
    ∃ s' chain' free', Check.walk now fuel ys.head? s = .ok s' ∧
      s'.Rep chain' free' (gs.filter fun g => g.key ∉ Check.swept s now ys) ∧
      Kept s s' (gs.filter fun g => g.key ∉ Check.swept s now ys) := by
  induction ys generalizing s chain free gs xs fuel with
  | nil =>
      have hall : (gs.filter fun g => g.key ∉ Check.swept s now []) = gs := by
        simp [Check.swept]
      rw [hall]
      exact ⟨s, chain, free, by simp [Check.walk], h, .refl s gs⟩
  | cons c ys ih =>
      obtain ⟨fuel, rfl⟩ : ∃ f, fuel = f + 1 := ⟨fuel - 1, by omega⟩
      rw [List.length_cons] at hfuel
      have hlinked := h.inv.hash.linked k hk
      have hsorted := h.inv.hash.sorted k hk
      rw [hsplit] at hlinked hsorted
      have hnext : (s.m_block c).m_next = ys.head? := hlinked.next_eq
      have hcmem : c ∈ chain k := by simp [hsplit]
      have hck : s.key c % HASH_MASK = k := ((h.inv.hash.mem k hk c).mp hcmem).2.2
      have hkey : (s.m_block c).m_key = s.key c := rfl
      rw [List.head?_cons, Check.walk]
      simp only [hnext]
      by_cases hold : s.expired now c
      · obtain ⟨s₁, free₁, hdel, h₁, hkept, hfreed⟩ := h.delete_kept (s.key c)
        rw [hck] at h₁ hfreed
        have hexp : now - (s.m_block c).m_uptime > s.m_timeout := hold
        simp only [hexp, if_true, hkey, hdel, bind, Except.bind]
        by_cases hsame : ys.head?.map s.key = some (s.key c)
        · -- the next block had the same key
          obtain ⟨y, hy, hyk⟩ := Option.map_eq_some_iff.mp hsame
          have hymem : y ∈ chain k := by
            rw [hsplit]
            exact List.mem_append_right xs (List.mem_cons_of_mem c (List.mem_of_mem_head? hy))
          have hylt : y < s₁.m_block_num := by
            rw [hkept.block_num]
            exact ((h.inv.hash.mem k hk y).mp hymem).1
          obtain ⟨fuel, rfl⟩ : ∃ f, fuel = f + 1 := by
            cases ys with
            | nil => simp at hy
            | cons _ _ => exact ⟨fuel - 1, by simp only [List.length_cons] at hfuel; omega⟩
          obtain ⟨s', chain', free', hrun, hrep, hkept'⟩ :=
            h₁.walk_free now fuel hylt (hfreed y hyk hymem)
          have hset : (gs.filter fun g => g.key ∉ Check.swept s now (c :: ys)) =
              withoutKey Group.key (s.key c) gs := by
            simp only [Check.swept, hold, if_true, hsame]
            rw [filter_cons_keys]
            simp
          rw [hset, hy]
          exact ⟨s', chain', free', hrun, hrep, hkept.trans hkept' fun _ hb => hb⟩
        · have hset : (gs.filter fun g => g.key ∉ Check.swept s now (c :: ys)) =
              (withoutKey Group.key (s.key c) gs).filter
                fun g => g.key ∉ Check.swept s now ys := by
            simp only [Check.swept, hold, if_true, hsame, if_false]
            exact filter_cons_keys _ _ _
          have hlater : ∀ b ∈ ys, s.key c < s.key b :=
            lt_of_sorted (List.pairwise_append.mp hsorted).2.1 hsame
          have hkeep : ∀ b ∈ ys, s₁.key b = s.key b := by
            intro b hb
            have hbmem : b ∈ chain k := by simp [hsplit, hb]
            obtain ⟨g, hg, hgb, hgk⟩ := h.mem_group hk hbmem
            have hne : g.key ≠ s.key c := by
              rw [hgk]
              exact (hlater b hb).ne'
            exact hkept.key b (List.mem_flatMap.mpr ⟨g, mem_withoutKey.mpr ⟨hg, hne⟩, hgb⟩)
          have hsplit₁ : Function.update chain k (withoutKey s.key (s.key c) (chain k)) k =
              withoutKey s.key (s.key c) (xs ++ [c]) ++ ys := by
            have hrest : withoutKey s.key (s.key c) ys = ys :=
              withoutKey_eq_self.mpr fun b hb => (hlater b hb).ne'
            rw [Function.update_self, hsplit, List.append_cons, withoutKey_append, hrest]
          obtain ⟨s', chain', free', hrun, hrep, hkept'⟩ :=
            ih h₁ hsplit₁ (Nat.lt_of_succ_lt_succ hfuel)
          rw [Check.swept_congr now hkeep (hkept.expired now)] at hrep hkept'
          rw [hset]
          exact ⟨s', chain', free', hrun, hrep,
            hkept.trans hkept' fun b hb => mem_blocksOf_filter hb⟩
      · have hexp : ¬ now - (s.m_block c).m_uptime > s.m_timeout := hold
        have hset : Check.swept s now (c :: ys) = Check.swept s now ys := if_neg hold
        simp only [hexp, if_false, hset]
        have hnew : chain k = (xs ++ [c]) ++ ys := by simp [hsplit]
        exact ih h hnew (by omega)

/-! ## The keys it deletes -/

/-- The walk reaches a key when no old key of several blocks stands before it. -/
theorem Check.mem_swept {s : CShmCache} {now : Int} {l : List Nat} (hsorted : SortedBy s.key l)
    (hsame : ∀ a ∈ l, ∀ b ∈ l, s.key a = s.key b → (s.expired now a ↔ s.expired now b)) (k : Nat) :
    k ∈ Check.swept s now l ↔ (∃ c ∈ l, s.key c = k ∧ s.expired now c) ∧
      ∀ d ∈ l, s.expired now d → s.key d < k → (withKey s.key (s.key d) l).length = 1 := by
  induction l with
  | nil => simp [Check.swept]
  | cons c ys ih =>
      have hys := (List.pairwise_cons.mp hsorted).2
      have hle := (List.pairwise_cons.mp hsorted).1
      have ih := ih hys fun a ha b hb => hsame a (List.mem_cons_of_mem c ha) b
        (List.mem_cons_of_mem c hb)
      by_cases hold : s.expired now c
      · by_cases hnext : ys.head?.map s.key = some (s.key c)
        · -- the key has another block, so only this key is deleted
          have htwo : (withKey s.key (s.key c) (c :: ys)).length ≠ 1 := by
            obtain ⟨y, hy, hyk⟩ := Option.map_eq_some_iff.mp hnext
            have hmem : y ∈ withKey s.key (s.key c) ys :=
              mem_withKey.mpr ⟨List.mem_of_mem_head? hy, hyk⟩
            rw [withKey_cons_self, List.length_cons]
            have := List.length_pos_of_mem hmem
            omega
          simp only [Check.swept, hold, if_true, hnext, List.mem_singleton]
          constructor
          · rintro rfl
            refine ⟨⟨c, List.mem_cons_self, rfl, hold⟩, fun d hd _ hlt => ?_⟩
            rcases List.mem_cons.mp hd with rfl | hd
            · exact absurd hlt (Nat.lt_irrefl _)
            · exact absurd (hle d hd) (Nat.not_le.mpr hlt)
          · rintro ⟨⟨a, ha, hak, -⟩, hall⟩
            by_contra hk
            have hlt : s.key c < k := by
              rcases List.mem_cons.mp ha with rfl | ha
              · exact absurd hak.symm hk
              · exact Nat.lt_of_le_of_ne (hak ▸ hle a ha) (Ne.symm hk)
            exact htwo (hall c List.mem_cons_self hold hlt)
        · have hlater := lt_of_sorted hsorted hnext
          have hone : (withKey s.key (s.key c) (c :: ys)).length = 1 := by
            have hnone : withKey s.key (s.key c) ys = [] :=
              withKey_eq_nil.mpr fun b hb => (hlater b hb).ne'
            rw [withKey_cons_self, hnone]
            rfl
          have hcount : ∀ d ∈ ys, withKey s.key (s.key d) (c :: ys) = withKey s.key (s.key d) ys :=
            fun d hd => withKey_cons_of_ne (hlater d hd).ne ys
          simp only [Check.swept, hold, if_true, hnext, if_false, List.mem_cons, ih]
          constructor
          · rintro (rfl | ⟨⟨a, ha, hak, haold⟩, hall⟩)
            · refine ⟨⟨c, .inl rfl, rfl, hold⟩, ?_⟩
              rintro d (rfl | hd) _ hlt
              · exact absurd hlt (Nat.lt_irrefl _)
              · exact absurd hlt (Nat.lt_asymm (hlater d hd))
            · refine ⟨⟨a, .inr ha, hak, haold⟩, ?_⟩
              rintro d (rfl | hd) hdold hlt
              · exact hone
              · rw [hcount d hd]
                exact hall d hd hdold hlt
          · rintro ⟨⟨a, rfl | ha, hak, haold⟩, hall⟩
            · exact .inl hak.symm
            · refine .inr ⟨⟨a, ha, hak, haold⟩, fun d hd hdold hlt => ?_⟩
              rw [← hcount d hd]
              exact hall d (.inr hd) hdold hlt
      · have hcount : ∀ d ∈ ys, s.expired now d →
            withKey s.key (s.key d) (c :: ys) = withKey s.key (s.key d) ys := by
          intro d hd hdold
          refine withKey_cons_of_ne (fun e => hold ?_) ys
          exact (hsame c List.mem_cons_self d (List.mem_cons_of_mem c hd) e).mpr hdold
        simp only [Check.swept, hold, if_false, List.mem_cons, ih]
        constructor
        · rintro ⟨⟨a, ha, hak, haold⟩, hall⟩
          refine ⟨⟨a, .inr ha, hak, haold⟩, ?_⟩
          rintro d (rfl | hd) hdold hlt
          · exact absurd hdold hold
          · rw [hcount d hd hdold]
            exact hall d hd hdold hlt
        · rintro ⟨⟨a, rfl | ha, hak, haold⟩, hall⟩
          · exact absurd haold hold
          · refine ⟨⟨a, ha, hak, haold⟩, fun d hd hdold hlt => ?_⟩
            rw [← hcount d hd hdold]
            exact hall d (.inr hd) hdold hlt

/-- A stored value that is too old. -/
def Group.Old (timeout : Nat) (now : Int) (g : Group) : Prop := now - g.uptime > timeout

instance (timeout : Nat) (now : Int) (g : Group) : Decidable (Group.Old timeout now g) :=
  inferInstanceAs (Decidable (_ > _))

/-- A value that `Check` reaches: it is too old, and no old value of several blocks in its
bucket has a smaller key. -/
def Reached (timeout : Nat) (now : Int) (gs : List Group) (g : Group) : Prop :=
  Group.Old timeout now g ∧ ∀ d ∈ gs, Group.Old timeout now d → d.key % HASH_MASK = g.key % HASH_MASK →
    d.key < g.key → d.blocks.length = 1

instance (timeout : Nat) (now : Int) (gs : List Group) (g : Group) :
    Decidable (Reached timeout now gs g) :=
  inferInstanceAs (Decidable (_ ∧ ∀ d ∈ gs, _))

theorem Rep.expired_iff (h : s.Rep chain free gs) (now : Int) {g : Group} (hg : g ∈ gs) {b : Nat}
    (hb : b ∈ g.blocks) : s.expired now b ↔ Group.Old s.m_timeout now g := by
  rw [expired, h.uptime g hg b hb, Group.Old]

theorem Rep.group_unique (h : s.Rep chain free gs) {g g' : Group} (hg : g ∈ gs) (hg' : g' ∈ gs)
    (hk : g.key = g'.key) : g = g' :=
  List.inj_on_of_nodup_map h.distinct hg hg' hk

theorem Rep.withKey_chain (h : s.Rep chain free gs) {g : Group} (hg : g ∈ gs) :
    withKey s.key g.key (chain (g.key % HASH_MASK)) = g.blocks := by
  rw [h.keyed, withKey_eq_singleton h.distinct hg rfl, blocksOf_singleton]

theorem Rep.mem_swept (h : s.Rep chain free gs) (now : Int) {k : Nat} (hk : k < HASH_MASK)
    {g : Group} (hg : g ∈ gs) :
    g.key ∈ Check.swept s now (chain k) ↔
      g.key % HASH_MASK = k ∧ Reached s.m_timeout now gs g := by
  have hbucket : ∀ b ∈ chain k, s.key b % HASH_MASK = k := fun b hb =>
    ((h.inv.hash.mem k hk b).mp hb).2.2
  have hblock : ∀ d ∈ gs, d.key % HASH_MASK = k → ∀ b ∈ d.blocks, b ∈ chain k := by
    intro d hd hdk b hb
    rw [← h.withKey_chain hd, hdk] at hb
    exact (mem_withKey.mp hb).1
  have hsame : ∀ a ∈ chain k, ∀ b ∈ chain k, s.key a = s.key b →
      (s.expired now a ↔ s.expired now b) := by
    intro a ha b hb hab
    obtain ⟨d, hd, hda, hdk⟩ := h.mem_group hk ha
    obtain ⟨e, he, heb, hek⟩ := h.mem_group hk hb
    obtain rfl := h.group_unique hd he (by rw [hdk, hek, hab])
    rw [h.expired_iff now hd hda, h.expired_iff now hd heb]
  rw [Check.mem_swept (h.inv.hash.sorted k hk) hsame]
  constructor
  · rintro ⟨⟨c, hc, hck, hcold⟩, hall⟩
    obtain ⟨d, hd, hdc, hdk⟩ := h.mem_group hk hc
    obtain rfl := h.group_unique hd hg (by rw [hdk, hck])
    have hgk : d.key % HASH_MASK = k := by rw [hdk]; exact hbucket c hc
    refine ⟨hgk, (h.expired_iff now hd hdc).mp hcold, fun e he heold hek hlt => ?_⟩
    obtain ⟨b, bs, hbs⟩ := List.exists_cons_of_ne_nil (h.used e he).2
    have hb : b ∈ e.blocks := by simp [hbs]
    have hkey := h.key he hb
    have hone := hall b (hblock e he (hek.trans hgk) b hb) ((h.expired_iff now he hb).mpr heold)
      (by rwa [hkey])
    have hwith := h.withKey_chain he
    rw [hek, hgk] at hwith
    rwa [hkey, hwith] at hone
  · rintro ⟨hgk, hold, hall⟩
    obtain ⟨b, bs, hbs⟩ := List.exists_cons_of_ne_nil (h.used g hg).2
    have hb : b ∈ g.blocks := by simp [hbs]
    refine ⟨⟨b, hblock g hg hgk b hb, h.key hg hb, (h.expired_iff now hg hb).mpr hold⟩, ?_⟩
    intro c hc hcold hlt
    obtain ⟨e, he, hec, hek⟩ := h.mem_group hk hc
    have hbk := hbucket c hc
    have hwith := h.withKey_chain he
    rw [hek, hbk] at hwith
    rw [hwith]
    exact hall e he ((h.expired_iff now he hec).mp hcold) (by rw [hek, hbk, hgk]) (by rwa [hek])

/-! ## All buckets -/

theorem reached_filter {timeout : Nat} {now : Int} {p : Group → Bool} {g : Group}
    (hp : ∀ d ∈ gs, d.key % HASH_MASK = g.key % HASH_MASK → p d = true) :
    Reached timeout now (gs.filter p) g ↔ Reached timeout now gs g := by
  constructor
  · rintro ⟨hold, hall⟩
    exact ⟨hold, fun d hd hdold hk hlt =>
      hall d (List.mem_filter.mpr ⟨hd, hp d hd hk⟩) hdold hk hlt⟩
  · rintro ⟨hold, hall⟩
    exact ⟨hold, fun d hd hdold hk hlt => hall d (List.mem_filter.mp hd).1 hdold hk hlt⟩

/-- What the walks of two groups of buckets leave. -/
theorem filter_reached_cons (gs : List Group) (timeout : Nat) (now : Int) {k : Nat}
    {buckets : List Nat} (hk : k ∉ buckets) :
    ((gs.filter fun g => ¬ (g.key % HASH_MASK = k ∧ Reached timeout now gs g)).filter
        fun g => ¬ (g.key % HASH_MASK ∈ buckets ∧ Reached timeout now
          (gs.filter fun g => ¬ (g.key % HASH_MASK = k ∧ Reached timeout now gs g)) g)) =
      gs.filter fun g => ¬ (g.key % HASH_MASK ∈ k :: buckets ∧ Reached timeout now gs g) := by
  rw [List.filter_filter]
  apply List.filter_congr
  intro g _
  by_cases hgk : g.key % HASH_MASK = k
  · simp [hgk, hk]
  · -- the first walk took nothing from the bucket of `g`
    have hsame : Reached timeout now (gs.filter fun g => ¬ (g.key % HASH_MASK = k ∧
        Reached timeout now gs g)) g ↔ Reached timeout now gs g := by
      apply reached_filter
      intro d _ hd
      have hdk : ¬ d.key % HASH_MASK = k := fun e => hgk (hd.symm.trans e)
      simp [hdk]
    simp only [hsame, hgk, false_and, not_false_iff, decide_true, Bool.and_true, List.mem_cons,
      false_or]

/-- The walks along the chains of some buckets. -/
theorem Rep.check_buckets (h : s.Rep chain free gs) (now : Int) {buckets : List Nat}
    (hnodup : buckets.Nodup) (hlt : ∀ k ∈ buckets, k < HASH_MASK) :
    ∃ s' chain' free',
      buckets.foldlM (fun s idx => Check.walk now (s.m_block_num + 2) (s.m_hash idx).m_head s) s =
        Except.ok s' ∧
      s'.Rep chain' free' (gs.filter fun g =>
        ¬ (g.key % HASH_MASK ∈ buckets ∧ Reached s.m_timeout now gs g)) ∧
      Kept s s' (gs.filter fun g =>
        ¬ (g.key % HASH_MASK ∈ buckets ∧ Reached s.m_timeout now gs g)) := by
  induction buckets generalizing s chain free gs with
  | nil =>
      have hall : (gs.filter fun g => ¬ (g.key % HASH_MASK ∈ ([] : List Nat) ∧
          Reached s.m_timeout now gs g)) = gs := by simp
      rw [hall]
      exact ⟨s, chain, free, rfl, h, .refl s gs⟩
  | cons k buckets ih =>
      obtain ⟨hk, hlt⟩ := List.forall_mem_cons.mp hlt
      obtain ⟨hnot, hnodup⟩ := List.nodup_cons.mp hnodup
      have hlen := h.inv.hash.length_le hk
      have hsplit : chain k = [] ++ chain k := rfl
      have hfuel : (chain k).length < s.m_block_num + 2 := by omega
      obtain ⟨s₁, chain₁, free₁, hwalk, h₁, hkept⟩ := h.walk now hk hsplit hfuel
      rw [← (h.inv.hash.linked k hk).head] at hwalk
      have hset₁ : (gs.filter fun g => g.key ∉ Check.swept s now (chain k)) =
          gs.filter fun g => ¬ (g.key % HASH_MASK = k ∧ Reached s.m_timeout now gs g) := by
        apply List.filter_congr
        intro g hg
        simp only [h.mem_swept now hk hg]
      rw [hset₁] at h₁ hkept
      obtain ⟨s', chain', free', hrun, h', hkept'⟩ := ih h₁ hnodup hlt
      rw [hkept.timeout] at h' hkept'
      have hset := filter_reached_cons gs s.m_timeout now hnot
      rw [hset] at h' hkept'
      refine ⟨s', chain', free', ?_, h', hkept.trans hkept' fun b hb => ?_⟩
      · rw [List.foldlM_cons, hwalk]
        exact hrun
      · rw [← hset] at hb
        exact mem_blocksOf_filter hb

/-- `Check` removes exactly the values it reaches. -/
theorem Rep.check (h : s.Rep chain free gs) (now : Int) :
    ∃ s' chain' free', s.Check now = .ok s' ∧
      s'.Rep chain' free' (gs.filter fun g => ¬ Reached s.m_timeout now gs g) ∧
      Kept s s' (gs.filter fun g => ¬ Reached s.m_timeout now gs g) := by
  have hall : ∀ k ∈ List.range HASH_MASK, k < HASH_MASK := fun k => List.mem_range.mp
  obtain ⟨s', chain', free', hrun, h', hkept⟩ := h.check_buckets now List.nodup_range hall
  have hset : (gs.filter fun g => ¬ (g.key % HASH_MASK ∈ List.range HASH_MASK ∧
      Reached s.m_timeout now gs g)) = gs.filter fun g => ¬ Reached s.m_timeout now gs g := by
    apply List.filter_congr
    intro g _
    have hmem : g.key % HASH_MASK ∈ List.range HASH_MASK :=
      List.mem_range.mpr (mod_HASH_MASK_lt g.key)
    simp only [hmem, true_and]
  rw [hset] at h' hkept
  exact ⟨s', chain', free', hrun, h', hkept⟩

end Walk

end CShmCache

end CommonCc
