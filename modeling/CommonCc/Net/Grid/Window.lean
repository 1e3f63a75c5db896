import CommonCc.Lib.Counters
import CommonCc.Lib.Transition
import CommonCc.Net.Grid.Model

/-!
# What the limiter admits

The water mark is always the sum of the ring.  While the clock does not go back, the
ring counts the requests admitted in each of the last grids, so that the water mark is
the number of requests in the window.
-/

namespace CommonCc

namespace CNetGrid

/-! ## The water mark -/

/-- The water mark is the sum of the ring and stays below its limit. -/
structure Balanced (g : CNetGrid) : Prop where
  count_pos : 1 ≤ g.grid_count
  max_lt : g.max_req_water_mark < 4294967296
  len : g.grid_array.length = g.grid_count
  curr_lt : g.curr_grid < g.grid_count
  sum : g.req_water_mark = g.grid_array.sum
  bound : g.req_water_mark ≤ g.max_req_water_mark - 1

/-- The settings and the start, which only a reset changes. -/
structure SameSettings (g g' : CNetGrid) : Prop where
  grid_count : g'.grid_count = g.grid_count
  grid_distant : g'.grid_distant = g.grid_distant
  max_req_water_mark : g'.max_req_water_mark = g.max_req_water_mark
  start_time : g'.start_time = g.start_time

section Balance

variable {g : CNetGrid}

theorem InitGrid_balanced {grid_count grid_distant max_req_water_mark : Nat} (now : TimeVal)
    (hcount : 1 ≤ grid_count) (hmax : max_req_water_mark < 4294967296) :
    (InitGrid grid_count grid_distant max_req_water_mark now).Balanced where
  count_pos := hcount
  max_lt := hmax
  len := List.length_replicate
  curr_lt := hcount
  sum := by simp [InitGrid]
  bound := Nat.zero_le _

theorem Balanced.reset (h : g.Balanced) (cur_time : TimeVal) : (g.reset cur_time).Balanced where
  count_pos := h.count_pos
  max_lt := h.max_lt
  len := List.length_replicate
  curr_lt := h.count_pos
  sum := by simp [CNetGrid.reset]
  bound := Nat.zero_le _

theorem slot_lt (h : 1 ≤ g.grid_count) (i : Nat) : g.slot i < g.grid_count :=
  Nat.mod_lt _ h

theorem clear_same (g : CNetGrid) (n : Nat) :
    SameSettings g (g.clear n) ∧ (g.clear n).curr_grid = g.curr_grid ∧
      (g.clear n).virtual_last_grid = g.virtual_last_grid := by
  induction n with
  | zero => exact ⟨⟨rfl, rfl, rfl, rfl⟩, rfl, rfl⟩
  | succ n ih => exact ⟨⟨ih.1.1, ih.1.2, ih.1.3, ih.1.4⟩, ih.2.1, ih.2.2⟩

/-- Clearing slots takes their requests off the water mark, which never goes below zero. -/
theorem Balanced.clear (h : g.Balanced) (n : Nat) : (g.clear n).Balanced := by
  induction n with
  | zero => exact h
  | succ n ih =>
      have hmax := ih.max_lt
      have hbound := ih.bound
      have hsum := ih.sum
      have hcount : (g.clear n).grid_count = g.grid_count := (clear_same g n).1.grid_count
      have hslot : g.slot n < (g.clear n).grid_array.length := by
        rw [ih.len, hcount]
        exact slot_lt h.count_pos n
      have hset := sum_set hslot 0
      have hle := getD_le_sum (g.clear n).grid_array (g.slot n)
      have hsub : u32Sub (g.clear n).req_water_mark ((g.clear n).grid_array.getD (g.slot n) 0) =
          (g.clear n).req_water_mark - (g.clear n).grid_array.getD (g.slot n) 0 :=
        u32Sub_of_le (by omega) (by omega)
      constructor
      · exact ih.count_pos
      · exact ih.max_lt
      · exact (List.length_set ..).trans ih.len
      · exact ih.curr_lt
      · show u32Sub _ _ = _
        rw [hsub]
        show _ = ((g.clear n).grid_array.set (g.slot n) 0).sum
        omega
      · show u32Sub _ _ ≤ _
        rw [hsub]
        exact Nat.le_trans (Nat.sub_le _ _) ih.bound

/-- A request that does not reach the limit is counted in its slot. -/
theorem count_request_normal (h : g.Balanced) (hroom : g.req_water_mark + 1 < g.max_req_water_mark) :
    g.count_request = (LR_NORMAL, { g with
      grid_array := g.grid_array.set g.curr_grid (g.grid_array.getD g.curr_grid 0 + 1)
      req_water_mark := g.req_water_mark + 1 }) := by
  have hmax := h.max_lt
  have hle := getD_le_sum g.grid_array g.curr_grid
  have hsum := h.sum
  unfold count_request
  rw [u32_of_lt (by omega : g.req_water_mark + 1 < 4294967296),
    u32_of_lt (by omega : g.grid_array.getD g.curr_grid 0 + 1 < 4294967296)]
  exact if_neg (Nat.not_le.mpr hroom)

/-- A request that reaches the limit leaves no trace. -/
theorem count_request_full (h : g.Balanced) (hfull : ¬ g.req_water_mark + 1 < g.max_req_water_mark) :
    g.count_request = (LR_FULL, g) := by
  have hmax := h.max_lt
  have hbound := h.bound
  have hle := getD_le_sum g.grid_array g.curr_grid
  have hsum := h.sum
  have hcurr : g.curr_grid < g.grid_array.length := by
    rw [h.len]
    exact h.curr_lt
  have hslot : g.grid_array.getD g.curr_grid 0 = g.grid_array[g.curr_grid] :=
    (List.getElem_eq_getD 0).symm
  unfold count_request
  rw [u32_of_lt (by omega : g.req_water_mark + 1 < 4294967296),
    u32_of_lt (by omega : g.grid_array.getD g.curr_grid 0 + 1 < 4294967296)]
  refine (if_pos (Nat.not_lt.mp hfull)).trans ?_
  have harray : (g.grid_array.set g.curr_grid (g.grid_array.getD g.curr_grid 0 + 1)).set
      g.curr_grid (u32Sub ((g.grid_array.set g.curr_grid
        (g.grid_array.getD g.curr_grid 0 + 1)).getD g.curr_grid 0) 1) = g.grid_array := by
    rw [getD_set_self hcurr, u32Sub_of_le (by omega) (by omega), List.set_set,
      Nat.add_sub_cancel, hslot, List.set_getElem_self]
  have hmark : u32Sub (g.req_water_mark + 1) 1 = g.req_water_mark := by
    rw [u32Sub_of_le (by omega) (by omega), Nat.add_sub_cancel]
  dsimp only
  rw [harray, hmark]

theorem Balanced.count_request (h : g.Balanced) : g.count_request.2.Balanced := by
  by_cases hroom : g.req_water_mark + 1 < g.max_req_water_mark
  · rw [count_request_normal h hroom]
    have hcurr : g.curr_grid < g.grid_array.length := by
      rw [h.len]
      exact h.curr_lt
    have hset := sum_set hcurr (g.grid_array.getD g.curr_grid 0 + 1)
    have hsum := h.sum
    constructor
    · exact h.count_pos
    · exact h.max_lt
    · exact (List.length_set ..).trans h.len
    · exact h.curr_lt
    · dsimp only
      omega
    · dsimp only
      omega
  · rw [count_request_full h hroom]
    exact h

theorem Balanced.advance (h : g.Balanced) (v : Nat) : (g.advance v).Balanced := by
  apply Balanced.clear
  exact ⟨h.count_pos, h.max_lt, h.len, Nat.mod_lt _ h.count_pos, h.sum, h.bound⟩

/-- Whatever the clock says, a call keeps the water mark equal to the sum of the ring. -/
theorem Balanced.check_load (h : g.Balanced) (cur_time : TimeVal) :
    (g.check_load cur_time).2.Balanced := by
  unfold CNetGrid.check_load
  dsimp only
  split
  · exact h.reset cur_time
  · split
    · split
      · exact h.advance _
      · exact (h.advance _).count_request
    · apply Balanced.count_request
      exact ⟨h.count_pos, h.max_lt, h.len, Nat.mod_lt _ h.count_pos, h.sum, h.bound⟩

end Balance

/-! ## The window -/

/-- The grid of a clock reading, counted from the start. -/
def gridOf (start : TimeVal) (grid_distant : Nat) (t : TimeVal) : Nat :=
  (t.micros - start.micros).toNat / 1000 / grid_distant

/-- The ring counts the requests admitted in each of the last grids.  `admitted` are the
grids of all requests admitted so far. -/
structure Records (g : CNetGrid) (admitted : List Nat) : Prop where
  slots : Tallies g.grid_array (fun k => g.virtual_last_grid < k + g.grid_count)
    (fun k => k % g.grid_count) admitted
  past : ∀ k ∈ admitted, k ≤ g.virtual_last_grid

section Window

variable {g : CNetGrid} {admitted : List Nat} {v : Nat}

theorem Records.water_mark (hb : g.Balanced) (h : g.Records admitted) :
    g.req_water_mark = admitted.countP fun k => g.virtual_last_grid < k + g.grid_count := by
  rw [hb.sum]
  apply h.slots.sum
  intro k
  rw [hb.len]
  exact Nat.mod_lt _ hb.count_pos

/-- Numbers less than one turn apart have different slots. -/
theorem mod_ne_of_lt {a b n : Nat} (hlt : b < a) (hturn : a < b + n) : a % n ≠ b % n := by
  intro heq
  have hzero := Nat.sub_mod_eq_zero_of_mod_eq heq
  rw [Nat.mod_eq_of_lt (by omega)] at hzero
  omega

/-- The unsigned index arithmetic goes back along the ring. -/
theorem slot_eq (hcurr : g.curr_grid = v % g.grid_count) (hcount : g.grid_count < 2147483648)
    {i : Nat} (hi : i < g.grid_count) (hiv : i ≤ v) : g.slot i = (v - i) % g.grid_count := by
  have hc : v % g.grid_count < g.grid_count := Nat.mod_lt _ (by omega)
  have hback : v % g.grid_count + g.grid_count - i + g.grid_count * (v / g.grid_count) =
      v - i + g.grid_count := by
    have hv := Nat.mod_add_div v g.grid_count
    omega
  have hmod : (v % g.grid_count + g.grid_count - i) % g.grid_count = (v - i) % g.grid_count := by
    rw [← Nat.add_mul_mod_self_left _ g.grid_count (v / g.grid_count), hback,
      Nat.add_mod_right]
  have hindex : u32 (u32Sub (v % g.grid_count) i + g.grid_count) =
      v % g.grid_count + g.grid_count - i := by
    unfold u32 u32Sub
    omega
  rw [slot, hcurr, hindex, hmod]

/-- The counters after the first rounds of the clearing loop. -/
theorem clear_getD (hb : g.Balanced) (n : Nat) {j : Nat} :
    (g.clear n).grid_array.getD j 0 =
      if ∃ i < n, g.slot i = j then 0 else g.grid_array.getD j 0 := by
  induction n with
  | zero => simp [clear]
  | succ n ih =>
      have hlen : g.slot n < (g.clear n).grid_array.length := by
        rw [(hb.clear n).len, (clear_same g n).1.grid_count]
        exact slot_lt hb.count_pos n
      show ((g.clear n).grid_array.set (g.slot n) 0).getD j 0 = _
      by_cases hj : g.slot n = j
      · subst hj
        rw [getD_set_self hlen, if_pos ⟨n, Nat.lt_succ_self n, rfl⟩]
      · rw [getD_set_of_ne hj, ih]
        have hiff : (∃ i < n, g.slot i = j) ↔ ∃ i < n + 1, g.slot i = j := by
          constructor
          · rintro ⟨i, hi, hs⟩
            exact ⟨i, Nat.lt_succ_of_lt hi, hs⟩
          · rintro ⟨i, hi, hs⟩
            have hne : i ≠ n := fun e => hj (e ▸ hs)
            exact ⟨i, by omega, hs⟩
        simp only [hiff]

/-- Moving on clears exactly the slots that have left the window. -/
theorem Records.advance (hb : g.Balanced) (h : g.Records admitted)
    (hcount : g.grid_count < 2147483648) (hv : v < 4294967296) (hlast : g.virtual_last_grid ≤ v) :
    (g.advance v).Records admitted := by
  let g₁ : CNetGrid := { g with curr_grid := v % g.grid_count, virtual_last_grid := v }
  have hb₁ : g₁.Balanced :=
    ⟨hb.count_pos, hb.max_lt, hb.len, Nat.mod_lt _ hb.count_pos, hb.sum, hb.bound⟩
  have hspan : g.grid_spand v = min g.grid_count (v - g.virtual_last_grid) := by
    unfold grid_spand
    rw [u32Sub_of_le hlast hv]
    dsimp only
    split <;> omega
  have hsame := clear_same g₁ (g.grid_spand v)
  have hcountEq : (g.advance v).grid_count = g.grid_count := hsame.1.grid_count
  have hlastEq : (g.advance v).virtual_last_grid = v := hsame.2.2
  have hslot : ∀ i < g.grid_spand v, g₁.slot i = (v - i) % g.grid_count := fun i hi =>
    slot_eq (g := g₁) rfl hcount (show i < g.grid_count by omega) (by omega)
  constructor
  · rw [hcountEq, hlastEq]
    intro j hj
    have hj' : j < g.grid_array.length := by
      have hlen : (g.advance v).grid_array.length = g.grid_count :=
        (hb.advance v).len.trans hcountEq
      rw [hb.len]
      omega
    show (g₁.clear (g.grid_spand v)).grid_array.getD j 0 = _
    rw [clear_getD hb₁]
    by_cases hcleared : ∃ i < g.grid_spand v, g₁.slot i = j
    · rw [if_pos hcleared, eq_comm, List.countP_eq_zero]
      intro k hk
      cases hcleared with
      | intro i hi =>
          have hpast := h.past k hk
          have hij := hi.2
          rw [hslot i hi.1] at hij
          have hspan' := hi.1
          simp only [Bool.and_eq_true, decide_eq_true_eq, not_and]
          intro hwin hkj
          exact mod_ne_of_lt (a := v - i) (b := k) (by omega) (by omega) (hij.trans hkj.symm)
    · rw [if_neg hcleared]
      refine (h.slots j hj').trans (List.countP_congr fun k hk => ?_)
      have hpast := h.past k hk
      simp only [Bool.and_eq_true, decide_eq_true_eq]
      constructor
      · intro hold
        by_cases hwin : v < k + g.grid_count
        · exact ⟨hwin, hold.2⟩
        · -- the grid left the window, so its slot has been cleared
          have hi : (v - k) % g.grid_count < g.grid_spand v := by
            rw [hspan]
            have hlt := Nat.mod_lt (v - k) hb.count_pos
            by_cases hfar : v - k < g.grid_count + g.grid_count
            · rw [Nat.mod_eq_sub_mod (by omega), Nat.mod_eq_of_lt (by omega)] at hlt ⊢
              omega
            · omega
          have hback : v - (v - k) % g.grid_count = k + g.grid_count * ((v - k) / g.grid_count) := by
            have hdiv := Nat.mod_add_div (v - k) g.grid_count
            omega
          refine absurd ⟨_, hi, ?_⟩ hcleared
          rw [hslot _ hi, hback, Nat.add_mul_mod_self_left]
          exact hold.2
      · intro hnew
        exact ⟨by omega, hnew.2⟩
  · rw [hlastEq]
    exact fun k hk => Nat.le_trans (h.past k hk) hlast

/-- An admitted request is recorded in the current grid. -/
theorem Records.count_request (hb : g.Balanced) (h : g.Records admitted)
    (hcurr : g.curr_grid = g.virtual_last_grid % g.grid_count) :
    g.count_request.2.Records
      (if g.count_request.1 = LR_NORMAL then admitted ++ [g.virtual_last_grid] else admitted) := by
  by_cases hroom : g.req_water_mark + 1 < g.max_req_water_mark
  · rw [count_request_normal hb hroom]
    constructor
    · intro j hj
      have hj' : j < g.grid_array.length := by
        rw [List.length_set] at hj
        exact hj
      have hold := h.slots j hj'
      rw [if_pos rfl, List.countP_append, ← hold]
      dsimp only
      by_cases hslot : g.curr_grid = j
      · subst hslot
        have hpos : g.grid_count ≠ 0 := Nat.ne_of_gt hb.count_pos
        rw [getD_set_self hj', hcurr]
        simp [hpos]
      · rw [getD_set_of_ne hslot]
        rw [hcurr] at hslot
        simp [hslot]
    · intro k hk
      rw [if_pos rfl, List.mem_append] at hk
      cases hk with
      | inl hk => exact h.past k hk
      | inr hk => exact Nat.le_of_eq (List.mem_singleton.mp hk)
  · rw [count_request_full hb hroom, if_neg (show ¬ LR_FULL = LR_NORMAL by decide)]
    exact h

/-- No window of `grid_count` grids has more admitted requests than the limit allows. -/
def WithinLimit (g : CNetGrid) (admitted : List Nat) : Prop :=
  ∀ w, (admitted.countP fun k => w ≤ k ∧ k < w + g.grid_count) ≤ g.max_req_water_mark - 1

/-- The window in which a request is counted holds every other window that it is in. -/
theorem WithinLimit.append (h : g.WithinLimit admitted) (hpast : ∀ k ∈ admitted, k ≤ v)
    (hwater : ((admitted ++ [v]).countP fun k => v < k + g.grid_count) ≤
      g.max_req_water_mark - 1) : g.WithinLimit (admitted ++ [v]) := by
  intro w
  by_cases hv : w ≤ v ∧ v < w + g.grid_count
  · refine Nat.le_trans (List.countP_mono_left fun k hk => ?_) hwater
    have hkv : k ≤ v := by
      cases List.mem_append.mp hk with
      | inl hk => exact hpast k hk
      | inr hk => exact Nat.le_of_eq (List.mem_singleton.mp hk)
    simp only [decide_eq_true_eq]
    omega
  · rw [List.countP_append, List.countP_singleton, if_neg (by simpa using hv), Nat.add_zero]
    exact h w

/-- Without going on, the window does not change. -/
theorem advance_last (g : CNetGrid) :
    g.advance g.virtual_last_grid =
      { g with curr_grid := g.virtual_last_grid % g.grid_count } := by
  have hspan : g.grid_spand g.virtual_last_grid = 0 := by
    unfold grid_spand u32Sub
    simp
  rw [advance, hspan]
  rfl

/-- A clock that has not gone back: the window moves on and the request is tried.  The
early return of the source refuses what the second test would refuse too. -/
theorem check_load_eq (hb : g.Balanced) {start t : TimeVal} (hstart : g.start_time = start)
    (ht : start.micros ≤ t.micros) (hms : (t.micros - start.micros) / 1000 < 4294967296) :
    g.check_load t = (g.advance (gridOf start g.grid_distant t)).count_request := by
  have hused : (t.tv_sec - g.start_time.tv_sec) * 1000000 + t.tv_usec - g.start_time.tv_usec =
      t.micros - start.micros := by
    rw [hstart]
    unfold TimeVal.micros
    omega
  have hgrid : g.virtual_curr_grid (t.micros - start.micros) = gridOf start g.grid_distant t := by
    unfold virtual_curr_grid gridOf
    rw [u32_of_lt (by omega)]
  unfold check_load
  rw [hused]
  dsimp only
  rw [if_neg (by omega), hgrid]
  generalize gridOf start g.grid_distant t = v
  by_cases hsame : v = g.virtual_last_grid
  · subst hsame
    rw [if_neg (by simp), advance_last]
  · rw [if_pos hsame]
    have hadv := hb.advance v
    by_cases hfull : (g.advance v).max_req_water_mark ≤ (g.advance v).req_water_mark
    · have hbound := hadv.bound
      rw [if_pos hfull, count_request_full hadv (by omega)]
    · rw [if_neg hfull]

theorem admit_same (hb : g.Balanced) :
    SameSettings g g.count_request.2 ∧ g.count_request.2.virtual_last_grid = g.virtual_last_grid := by
  by_cases hroom : g.req_water_mark + 1 < g.max_req_water_mark
  · rw [count_request_normal hb hroom]
    exact ⟨⟨rfl, rfl, rfl, rfl⟩, rfl⟩
  · rw [count_request_full hb hroom]
    exact ⟨⟨rfl, rfl, rfl, rfl⟩, rfl⟩

/-- The state of the limiter after the readings up to `last`, since the start. -/
structure Follows (g : CNetGrid) (start last : TimeVal) (admitted : List Nat) : Prop where
  balanced : g.Balanced
  records : g.Records admitted
  limit : g.WithinLimit admitted
  start_time : g.start_time = start
  last_grid : g.virtual_last_grid = gridOf start g.grid_distant last
  started : start.micros ≤ last.micros

theorem gridOf_mono {start last t : TimeVal} (h : last.micros ≤ t.micros) (grid_distant : Nat) :
    gridOf start grid_distant last ≤ gridOf start grid_distant t := by
  unfold gridOf
  apply Nat.div_le_div_right
  apply Nat.div_le_div_right
  omega

/-- One call at a reading that is not before the last one. -/
theorem Follows.check_load {start last t : TimeVal} (h : g.Follows start last admitted)
    (hcount : g.grid_count < 2147483648) (ht : last.micros ≤ t.micros)
    (hms : (t.micros - start.micros) / 1000 < 4294967296) :
    (g.check_load t).2.Follows start t
        (if (g.check_load t).1 = LR_NORMAL then
          admitted ++ [gridOf start g.grid_distant t] else admitted) ∧
      SameSettings g (g.check_load t).2 := by
  have hlast : gridOf start g.grid_distant last ≤ gridOf start g.grid_distant t :=
    gridOf_mono ht g.grid_distant
  have hstarted := h.started
  have hsmall : gridOf start g.grid_distant t < 4294967296 := by
    unfold gridOf
    have hdiv := Nat.div_le_self ((t.micros - start.micros).toNat / 1000) g.grid_distant
    omega
  rw [check_load_eq h.balanced h.start_time (by omega) hms]
  generalize hv : gridOf start g.grid_distant t = v at *
  have hb := h.balanced.advance v
  have hsame := clear_same { g with curr_grid := v % g.grid_count, virtual_last_grid := v }
    (g.grid_spand v)
  have hr := h.records.advance h.balanced hcount hsmall (by rw [h.last_grid]; exact hlast)
  have hcurr : (g.advance v).curr_grid =
      (g.advance v).virtual_last_grid % (g.advance v).grid_count := by
    rw [show (g.advance v).curr_grid = v % g.grid_count from hsame.2.1,
      show (g.advance v).virtual_last_grid = v from hsame.2.2,
      show (g.advance v).grid_count = g.grid_count from hsame.1.grid_count]
  have hadmit := hr.count_request hb hcurr
  have hkeep := admit_same hb
  have hvlast : (g.advance v).virtual_last_grid = v := hsame.2.2
  rw [hvlast] at hadmit hkeep
  have hsettings : SameSettings g (g.advance v).count_request.2 :=
    ⟨hkeep.1.grid_count.trans hsame.1.grid_count, hkeep.1.grid_distant.trans hsame.1.grid_distant,
      hkeep.1.max_req_water_mark.trans hsame.1.max_req_water_mark,
      hkeep.1.start_time.trans hsame.1.start_time⟩
  refine ⟨⟨hb.count_request, hadmit, ?_, hsettings.start_time.trans h.start_time, ?_, by omega⟩,
    hsettings⟩
  · have hwater := hadmit.water_mark hb.count_request
    have hbound := hb.count_request.bound
    rw [hkeep.2, hsettings.grid_count] at hwater
    have hold : (g.advance v).count_request.2.WithinLimit admitted := by
      intro w
      rw [hsettings.grid_count, hsettings.max_req_water_mark]
      exact h.limit w
    by_cases hnormal : (g.advance v).count_request.1 = LR_NORMAL
    · rw [if_pos hnormal] at hwater ⊢
      apply hold.append
      · intro k hk
        rw [← hv]
        exact Nat.le_trans (h.records.past k hk) (by rw [h.last_grid, hv]; exact hlast)
      · rw [hsettings.grid_count, ← hwater]
        exact hbound
    · rw [if_neg hnormal]
      exact hold
  · rw [hkeep.2, hsettings.grid_distant, hv]

end Window

/-! ## Every run -/

/-- The grids of the calls that returned `LR_NORMAL`. -/
def admittedGrids (start : TimeVal) (grid_distant : Nat) : List TimeVal → List Int → List Nat
  | t :: ts, r :: rs =>
      if r = LR_NORMAL then gridOf start grid_distant t :: admittedGrids start grid_distant ts rs
      else admittedGrids start grid_distant ts rs
  | _, _ => []

theorem run_balanced {g : CNetGrid} (h : g.Balanced) (readings : List TimeVal) :
    (runSpec check_load g readings).2.Balanced := by
  induction readings generalizing g with
  | nil => exact h
  | cons t ts ih => exact ih (h.check_load t)

theorem run_follows {g : CNetGrid} {start last : TimeVal} {admitted : List Nat}
    (h : g.Follows start last admitted) (hcount : g.grid_count < 2147483648)
    {readings : List TimeVal}
    (hsorted : (last :: readings).Pairwise fun a b => a.micros ≤ b.micros)
    (hms : ∀ t ∈ readings, (t.micros - start.micros) / 1000 < 4294967296) :
    (runSpec check_load g readings).2.Follows start
        ((last :: readings).getLast (List.cons_ne_nil _ _))
        (admitted ++ admittedGrids start g.grid_distant readings
          (runSpec check_load g readings).1) ∧
      SameSettings g (runSpec check_load g readings).2 := by
  induction readings generalizing g last admitted with
  | nil => exact ⟨by simpa [admittedGrids] using h, rfl, rfl, rfl, rfl⟩
  | cons t ts ih =>
      cases List.pairwise_cons.mp hsorted with
      | intro hfirst hrest =>
          have hone := h.check_load hcount (hfirst t List.mem_cons_self) (hms t List.mem_cons_self)
          have hset := hone.2
          have htail := ih hone.1 (by rw [hset.grid_count]; exact hcount) hrest
            fun x hx => hms x (List.mem_cons_of_mem t hx)
          rw [hset.grid_distant] at htail
          have hset' := htail.2
          refine ⟨?_, hset'.1.trans hset.1, hset'.2.trans hset.2, hset'.3.trans hset.3,
            hset'.4.trans hset.4⟩
          rw [List.getLast_cons (List.cons_ne_nil t ts)]
          have hadm : (if (g.check_load t).1 = LR_NORMAL then
                admitted ++ [gridOf start g.grid_distant t] else admitted) ++
              admittedGrids start g.grid_distant ts (runSpec check_load (g.check_load t).2 ts).1 =
              admitted ++ admittedGrids start g.grid_distant (t :: ts)
                (runSpec check_load g (t :: ts)).1 := by
            simp only [runSpec, admittedGrids]
            split <;> simp
          rw [← hadm]
          exact htail.1

theorem InitGrid_follows {grid_count grid_distant max_req_water_mark : Nat} (start : TimeVal)
    (hcount : 1 ≤ grid_count) (hmax : max_req_water_mark < 4294967296) :
    (InitGrid grid_count grid_distant max_req_water_mark start).Follows start start [] where
  balanced := InitGrid_balanced start hcount hmax
  records := by
    constructor
    · intro j hj
      have hzero : (List.replicate grid_count 0).getD j 0 = 0 := by
        rw [List.getD_eq_getElem?_getD, List.getElem?_replicate]
        split <;> rfl
      exact hzero
    · simp
  limit := fun w => Nat.zero_le _
  start_time := rfl
  last_grid := by simp [gridOf, InitGrid]
  started := le_refl _

/-- After every sequence of calls the water mark is the sum of the ring.  While the clock
does not go back, it is the number of requests admitted in the last `grid_count` grids, and
no window of that many grids holds more than the limit allows. -/
theorem water_mark_exact {grid_count grid_distant max_req_water_mark : Nat}
    (hcount : 1 ≤ grid_count) (hcount' : grid_count < 2147483648) (_ : 1 ≤ grid_distant)
    (hmax : max_req_water_mark < 4294967296) (start : TimeVal) (readings : List TimeVal) :
    let out := runSpec check_load
      (InitGrid grid_count grid_distant max_req_water_mark start) readings
    let admitted := admittedGrids start grid_distant readings out.1
    out.2.req_water_mark = out.2.grid_array.sum ∧
      ((start :: readings).Pairwise (fun a b => a.micros ≤ b.micros) →
        (∀ t ∈ readings, (t.micros - start.micros) / 1000 < 4294967296) →
        (∀ t, readings.getLast? = some t →
          out.2.req_water_mark = admitted.countP fun k =>
            k ≤ gridOf start grid_distant t ∧ gridOf start grid_distant t < k + grid_count) ∧
        ∀ w, (admitted.countP fun k => w ≤ k ∧ k < w + grid_count) ≤ max_req_water_mark - 1) := by
  intro out admitted
  have hinit : (InitGrid grid_count grid_distant max_req_water_mark start).Follows start start [] :=
    InitGrid_follows start hcount hmax
  refine ⟨(run_balanced hinit.balanced readings).sum, fun hsorted hms => ?_⟩
  have hrun := run_follows hinit hcount' hsorted hms
  have hf := hrun.1
  have hset := hrun.2
  have hcountEq : out.2.grid_count = grid_count := hset.grid_count
  constructor
  · intro t ht
    have hlast : (start :: readings).getLast (List.cons_ne_nil _ _) = t := by
      rw [List.getLast_eq_iff_getLast?_eq_some, List.getLast?_cons, ht]
      rfl
    have hwater := hf.records.water_mark hf.balanced
    have hgrid : out.2.virtual_last_grid = gridOf start grid_distant t := by
      rw [← hlast, hf.last_grid]
      exact congrArg (gridOf start · _) hset.grid_distant
    refine hwater.trans (List.countP_congr fun k hk => ?_)
    have hpast : k ≤ out.2.virtual_last_grid := hf.records.past k hk
    rw [show (runSpec check_load (InitGrid grid_count grid_distant max_req_water_mark start)
      readings).2 = out.2 from rfl, hgrid, hcountEq]
    rw [hgrid] at hpast
    simp [hpast]
  · intro w
    have hw := hf.limit w
    rw [hcountEq, show out.2.max_req_water_mark = max_req_water_mark from
      hset.max_req_water_mark] at hw
    exact hw

/-- Two requests in a window of two grids of ten milliseconds, the third refused. -/
theorem water_mark_exact_two :
    let readings : List TimeVal := [⟨0, 0⟩, ⟨0, 15000⟩, ⟨0, 15000⟩]
    let out := runSpec check_load (InitGrid 2 10 3 ⟨0, 0⟩) readings
    let admitted := admittedGrids ⟨0, 0⟩ 10 readings out.1
    out.2.req_water_mark = out.2.grid_array.sum ∧
      (out.2.req_water_mark = admitted.countP fun k => k ≤ 1 ∧ 1 < k + 2) ∧
      ∀ w, (admitted.countP fun k => w ≤ k ∧ k < w + 2) ≤ 2 := by
  intro readings out admitted
  have h := @water_mark_exact 2 10 3
    (by decide) (by decide) (by decide) (by decide) ⟨0, 0⟩ readings
  have hsorted : ((⟨0, 0⟩ : TimeVal) :: readings).Pairwise fun a b => a.micros ≤ b.micros := by
    decide
  have hwindow := h.2 hsorted (by decide)
  exact ⟨h.1, hwindow.1 ⟨0, 15000⟩ rfl, hwindow.2⟩

end CNetGrid

end CommonCc
