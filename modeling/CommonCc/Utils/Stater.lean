import CommonCc.Base
import CommonCc.Lib.SortedMap

/-!
# `CStater`

Costs and counts by key.  The table holds the items themselves: the code keeps one pointer for
each key and shares none.
-/

namespace CommonCc

structure SStaterItem where
  total_cost_usec : Nat
  max_cost_usec : Nat
  min_cost_usec : Nat
  total_num : Nat
  threshold1_num : Nat
  threshold2_num : Nat
  threshold3_num : Nat
  begin_time : TimeVal
deriving Repr, DecidableEq

/-- The constructor.  The smallest cost starts at one hour. -/
def SStaterItem.new (now : TimeVal) : SStaterItem where
  total_cost_usec := 0
  max_cost_usec := 0
  min_cost_usec := 1000 * 1000 * 3600
  total_num := 0
  threshold1_num := 0
  threshold2_num := 0
  threshold3_num := 0
  begin_time := now

structure CStater where
  threshold1 : Nat
  threshold2 : Nat
  threshold3 : Nat
  stat : SortedMap Bytes SStaterItem

namespace CStater

/-! ## The functions -/

/-- The constructor. -/
def new : CStater where
  threshold1 := 10000
  threshold2 := 50000
  threshold3 := 80000
  stat := .empty

/-- `Init` with the thresholds of the configuration. -/
def Init (s : CStater) (threshold1 threshold2 threshold3 : Nat) : CStater :=
  { s with threshold1 := threshold1, threshold2 := threshold2, threshold3 := threshold3 }

/-- The difference of two clock readings, converted to `uint64_t`. -/
def costUsec (st ed : TimeVal) : Nat :=
  (((ed.tv_sec - st.tv_sec) * 1000000 + (ed.tv_usec - st.tv_usec)) % 18446744073709551616).toNat

/-- `AddStat` of one item. -/
def addItem (s : CStater) (stat : SStaterItem) (st ed : TimeVal) (count : Nat) : SStaterItem :=
  let cost_usec := costUsec st ed
  { stat with
    total_num := u32 (stat.total_num + count)
    max_cost_usec := if cost_usec > stat.max_cost_usec then cost_usec else stat.max_cost_usec
    min_cost_usec := if cost_usec < stat.min_cost_usec then cost_usec else stat.min_cost_usec
    threshold1_num :=
      if cost_usec ≥ s.threshold1 then u32 (stat.threshold1_num + count) else stat.threshold1_num
    threshold2_num :=
      if cost_usec ≥ s.threshold2 then u32 (stat.threshold2_num + count) else stat.threshold2_num
    threshold3_num :=
      if cost_usec ≥ s.threshold3 then u32 (stat.threshold3_num + count) else stat.threshold3_num
    total_cost_usec := u64 (stat.total_cost_usec + cost_usec) }

/-- The item of a key, a new one if there is none. -/
def item (s : CStater) (stat_key : Bytes) (now : TimeVal) : SStaterItem :=
  (s.stat.find stat_key).getD (.new now)

def AddStat (s : CStater) (stat_key : Bytes) (st ed : TimeVal) (count : Nat) (now : TimeVal) :
    CStater :=
  { s with stat := s.stat.set stat_key (s.addItem (s.item stat_key now) st ed count) }

def BeginStat (s : CStater) (stat_key : Bytes) (now : TimeVal) : CStater :=
  { s with stat := s.stat.set stat_key { s.item stat_key now with begin_time := now } }

def EndStat (s : CStater) (stat_key : Bytes) (count : Nat) (end_time : TimeVal) : CStater :=
  match s.stat.find stat_key with
  | none => s
  | some stat =>
      { s with stat := s.stat.set stat_key (s.addItem stat stat.begin_time end_time count) }

def AddCount (s : CStater) (stat_key : Bytes) (count : Nat) (now : TimeVal) : CStater :=
  let stat := s.item stat_key now
  { s with stat := s.stat.set stat_key { stat with total_num := u32 (stat.total_num + count) } }

def DelStat (s : CStater) (stat_key : Bytes) : CStater := { s with stat := s.stat.erase stat_key }

/-! ## Runs -/

/-- A call for a key.  `now` is the clock where the call reads it. -/
inductive Call where
  | addStat (stat_key : Bytes) (st ed : TimeVal) (count : Nat) (now : TimeVal)
  | beginStat (stat_key : Bytes) (now : TimeVal)
  | endStat (stat_key : Bytes) (count : Nat) (now : TimeVal)
  | addCount (stat_key : Bytes) (count : Nat) (now : TimeVal)
  | delStat (stat_key : Bytes)
deriving Repr, DecidableEq

def Call.stat_key : Call → Bytes
  | .addStat stat_key _ _ _ _ => stat_key
  | .beginStat stat_key _ => stat_key
  | .endStat stat_key _ _ => stat_key
  | .addCount stat_key _ _ => stat_key
  | .delStat stat_key => stat_key

def step (s : CStater) : Call → CStater
  | .addStat stat_key st ed count now => s.AddStat stat_key st ed count now
  | .beginStat stat_key now => s.BeginStat stat_key now
  | .endStat stat_key count now => s.EndStat stat_key count now
  | .addCount stat_key count now => s.AddCount stat_key count now
  | .delStat stat_key => s.DelStat stat_key

/-- The state after a sequence of calls. -/
def run (s : CStater) (calls : List Call) : CStater := calls.foldl step s

/-- What one call of `AddStat` reports. -/
structure Sample where
  cost : Nat
  count : Nat
deriving Repr, DecidableEq

/-- What a call reports for `key`. -/
def Call.sample (key : Bytes) : Call → Option Sample
  | .addStat stat_key st ed count _ =>
      if stat_key = key then some ⟨(ed.micros - st.micros).toNat, count⟩ else none
  | _ => none

/-- What was reported for `key`, in order. -/
def samples (key : Bytes) (calls : List Call) : List Sample := calls.filterMap (Call.sample key)

/-- For `key` there are only calls of `AddStat`, and none ends before it starts. -/
def Reports (key : Bytes) (calls : List Call) : Prop :=
  ∀ c ∈ calls, c.stat_key = key →
    ∃ st ed count now, c = .addStat key st ed count now ∧ st.micros ≤ ed.micros

/-! ## One call -/

section

variable {s : CStater} {key : Bytes} {c : Call}

/-- A call for another key leaves the item of `key` alone. -/
theorem find_step_of_ne (h : c.stat_key ≠ key) : (s.step c).stat.find key = s.stat.find key := by
  cases c with
  | addStat stat_key st ed count now => exact (SortedMap.find_set ..).trans (if_neg h)
  | beginStat stat_key now => exact (SortedMap.find_set ..).trans (if_neg h)
  | endStat stat_key count now =>
      unfold step EndStat
      dsimp only
      split
      · rfl
      · exact (SortedMap.find_set ..).trans (if_neg h)
  | addCount stat_key count now => exact (SortedMap.find_set ..).trans (if_neg h)
  | delStat stat_key => exact (SortedMap.find_erase ..).trans (if_neg h)

theorem sample_of_ne (h : c.stat_key ≠ key) : c.sample key = none := by
  cases c with
  | addStat stat_key st ed count now => exact if_neg h
  | _ => rfl

/-- No call changes the thresholds. -/
theorem thresholds_step (s : CStater) (c : Call) :
    (s.step c).threshold1 = s.threshold1 ∧ (s.step c).threshold2 = s.threshold2 ∧
      (s.step c).threshold3 = s.threshold3 := by
  cases c with
  | endStat stat_key count now =>
      unfold step EndStat
      dsimp only
      split
      · exact ⟨rfl, rfl, rfl⟩
      · exact ⟨rfl, rfl, rfl⟩
  | _ => exact ⟨rfl, rfl, rfl⟩

theorem thresholds_run (s : CStater) (calls : List Call) :
    (s.run calls).threshold1 = s.threshold1 ∧ (s.run calls).threshold2 = s.threshold2 ∧
      (s.run calls).threshold3 = s.threshold3 := by
  induction calls generalizing s with
  | nil => exact ⟨rfl, rfl, rfl⟩
  | cons c calls ih =>
      have hstep := thresholds_step s c
      have hrest := ih (s.step c)
      exact ⟨hrest.1.trans hstep.1, hrest.2.1.trans hstep.2.1, hrest.2.2.trans hstep.2.2⟩

end

/-! ## Tallies -/

/-- The accumulators of an item. -/
structure Tally where
  total_cost : Nat
  max_cost : Nat
  min_cost : Nat
  total_num : Nat
  threshold1_num : Nat
  threshold2_num : Nat
  threshold3_num : Nat
deriving Repr, DecidableEq

def Tally.ofItem (stat : SStaterItem) : Tally :=
  ⟨stat.total_cost_usec, stat.max_cost_usec, stat.min_cost_usec, stat.total_num,
    stat.threshold1_num, stat.threshold2_num, stat.threshold3_num⟩

/-- The costs that were reported. -/
def costs (xs : List Sample) : List Nat := xs.map Sample.cost

/-- The sum of the counts whose cost reaches `threshold`. -/
def countAt (threshold : Nat) (xs : List Sample) : Nat :=
  ((xs.filter fun x => x.cost ≥ threshold).map Sample.count).sum

/-- The accumulators after the samples `xs`, whose costs are those of `uint64_t`. -/
def tally (s : CStater) (xs : List Sample) : Tally where
  total_cost := u64 (costs xs).sum
  max_cost := (costs xs).foldl max 0
  min_cost := (costs xs).foldl min 3600000000
  total_num := u32 (xs.map Sample.count).sum
  threshold1_num := u32 (countAt s.threshold1 xs)
  threshold2_num := u32 (countAt s.threshold2 xs)
  threshold3_num := u32 (countAt s.threshold3 xs)

section

variable {s : CStater} {xs ys : List Sample}

theorem u32_add (a b : Nat) : u32 (u32 a + b) = u32 (a + b) := by
  unfold u32
  omega

theorem u64_add (a b : Nat) : u64 (u64 a + b) = u64 (a + b) := by
  unfold u64
  omega

theorem countAt_concat (threshold : Nat) (xs : List Sample) (x : Sample) :
    u32 (countAt threshold (xs ++ [x])) =
      if x.cost ≥ threshold then u32 (u32 (countAt threshold xs) + x.count)
      else u32 (countAt threshold xs) := by
  unfold countAt
  rw [List.filter_append, List.map_append, List.sum_append]
  by_cases hx : x.cost ≥ threshold
  · rw [if_pos hx, u32_add, List.filter_cons_of_pos (by simpa using hx)]
    simp
  · rw [if_neg hx, List.filter_cons_of_neg (by simpa using hx)]
    simp

/-- The order of the samples does not matter. -/
theorem tally_perm (h : xs.Perm ys) : tally s xs = tally s ys := by
  have hcosts : (costs xs).Perm (costs ys) := h.map Sample.cost
  have hat : ∀ threshold, countAt threshold xs = countAt threshold ys := fun threshold =>
    ((h.filter _).map Sample.count).sum_nat
  have hmax : (costs xs).foldl max 0 = (costs ys).foldl max 0 :=
    hcosts.foldl_eq' (fun a _ b _ c => Nat.max_right_comm c a b) 0
  have hmin : (costs xs).foldl min 3600000000 = (costs ys).foldl min 3600000000 :=
    hcosts.foldl_eq' (fun a _ b _ c => Nat.min_right_comm c a b) 3600000000
  unfold tally
  rw [hcosts.sum_nat, hmax, hmin, (h.map Sample.count).sum_nat, hat, hat, hat]

/-- How the code keeps the largest cost. -/
theorem larger_eq_max (m c : Nat) : (if c > m then c else m) = max m c := by
  split
  · next h => exact (Nat.max_eq_right (Nat.le_of_lt h)).symm
  · next h => exact (Nat.max_eq_left (Nat.not_lt.mp h)).symm

theorem smaller_eq_min (m c : Nat) : (if c < m then c else m) = min m c := by
  split
  · next h => exact (Nat.min_eq_right (Nat.le_of_lt h)).symm
  · next h => exact (Nat.min_eq_left (Nat.not_lt.mp h)).symm

/-- One more sample. -/
theorem ofItem_addItem {stat : SStaterItem} {st ed : TimeVal} {count : Nat}
    (h : Tally.ofItem stat = tally s xs) :
    Tally.ofItem (s.addItem stat st ed count) = tally s (xs ++ [⟨costUsec st ed, count⟩]) := by
  have hcosts : costs (xs ++ [⟨costUsec st ed, count⟩]) = costs xs ++ [costUsec st ed] := by
    simp [costs]
  simp only [Tally.ofItem, tally, Tally.mk.injEq] at h
  obtain ⟨htotal, hmax, hmin, hnum, h1, h2, h3⟩ := h
  simp only [Tally.ofItem, addItem, tally, hcosts, countAt_concat, List.sum_append,
    List.foldl_append, List.foldl_cons, List.foldl_nil, List.map_append, List.map_cons,
    List.map_nil, List.sum_cons, List.sum_nil, Nat.add_zero, htotal, hmax, hmin, hnum, h1, h2, h3,
    u32_add, u64_add, larger_eq_max, smaller_eq_min]

theorem ofItem_new (s : CStater) (now : TimeVal) : Tally.ofItem (.new now) = tally s [] := rfl

end

/-! ## The item after a run -/

section

variable {s : CStater} {key : Bytes} {calls : List Call}

theorem costUsec_eq {st ed : TimeVal} (h : st.micros ≤ ed.micros)
    (hsmall : (ed.micros - st.micros).toNat < 18446744073709551616) :
    costUsec st ed = (ed.micros - st.micros).toNat := by
  have hdiff : (ed.tv_sec - st.tv_sec) * 1000000 + (ed.tv_usec - st.tv_usec) =
      ed.micros - st.micros := by
    unfold TimeVal.micros
    omega
  rw [costUsec, hdiff, Int.emod_eq_of_lt (by omega) (by omega)]

theorem samples_concat (key : Bytes) (calls : List Call) (c : Call) :
    samples key (calls ++ [c]) = samples key calls ++ (c.sample key).toList := by
  unfold samples
  rw [List.filterMap_append]
  cases hc : c.sample key <;> simp [hc]

theorem run_concat (s : CStater) (calls : List Call) (c : Call) :
    s.run (calls ++ [c]) = (s.run calls).step c := by
  simp [run]

theorem tally_run (s : CStater) (calls : List Call) (xs : List Sample) :
    tally (s.run calls) xs = tally s xs := by
  have h := thresholds_run s calls
  unfold tally
  rw [h.1, h.2.1, h.2.2]

/-- The item of a key holds the tally of what was reported for it. -/
theorem find_run (hnone : s.stat.find key = none) (h : Reports key calls)
    (hsmall : ∀ x ∈ samples key calls, x.cost < 18446744073709551616) :
    ((s.run calls).stat.find key).map Tally.ofItem =
      if samples key calls = [] then none else some (tally s (samples key calls)) := by
  induction calls using List.reverseRecOn with
  | nil => exact congrArg (Option.map Tally.ofItem) hnone
  | append_singleton calls c ih =>
      have hc := h c (List.mem_append_right _ List.mem_cons_self)
      rw [samples_concat] at hsmall ⊢
      have hrest := ih (fun c' hc' => h c' (List.mem_append_left _ hc'))
        fun x hx => hsmall x (List.mem_append_left _ hx)
      rw [run_concat]
      by_cases hkey : c.stat_key = key
      · obtain ⟨st, ed, count, now, rfl, htime⟩ := hc hkey
        have hsample : (Call.addStat key st ed count now).sample key =
            some ⟨(ed.micros - st.micros).toNat, count⟩ := if_pos rfl
        rw [hsample, Option.toList_some] at hsmall ⊢
        have hcost := costUsec_eq htime (hsmall _ (List.mem_append_right _ List.mem_cons_self))
        have hitem : Tally.ofItem ((s.run calls).item key now) =
            tally (s.run calls) (samples key calls) := by
          rw [tally_run, item]
          cases hfind : (s.run calls).stat.find key with
          | none =>
              rw [hfind] at hrest
              split at hrest
              · next hempty =>
                  rw [hempty]
                  exact ofItem_new s now
              · cases hrest
          | some stat =>
              rw [hfind] at hrest
              split at hrest
              · cases hrest
              · exact Option.some.inj hrest
        have hadd : Tally.ofItem ((s.run calls).addItem ((s.run calls).item key now) st ed count) =
            tally (s.run calls) (samples key calls ++ [⟨costUsec st ed, count⟩]) :=
          ofItem_addItem hitem
        rw [tally_run, hcost] at hadd
        have hfind : ((s.run calls).step (.addStat key st ed count now)).stat.find key =
            some ((s.run calls).addItem ((s.run calls).item key now) st ed count) :=
          (SortedMap.find_set ..).trans (if_pos rfl)
        rw [hfind, Option.map_some, hadd, if_neg (by simp)]
      · rw [find_step_of_ne hkey, sample_of_ne hkey, Option.toList_none, List.append_nil]
        exact hrest

/-! ## Aggregates -/

theorem le_sum_of_mem {n : Nat} {ns : List Nat} (h : n ∈ ns) : n ≤ ns.sum := by
  rw [(List.perm_cons_erase h).sum_nat, List.sum_cons]
  exact Nat.le_add_right n _

theorem countAt_le (threshold : Nat) (xs : List Sample) :
    countAt threshold xs ≤ (xs.map Sample.count).sum := by
  have hsplit := (List.filter_append_perm (fun x : Sample => x.cost ≥ threshold) xs).map Sample.count
  rw [← hsplit.sum_nat, List.map_append, List.sum_append]
  exact Nat.le_add_right _ _

/-- Costs are not below zero, so the largest one is found. -/
theorem max?_eq_foldl {ns : List Nat} (h : ns ≠ []) : ns.max? = some (ns.foldl max 0) := by
  cases ns with
  | nil => exact absurd rfl h
  | cons n ns => rw [List.max?_cons', List.foldl_cons, Nat.zero_max]

/-- The smallest one is found when it does not lie above the start. -/
theorem min?_eq_foldl_iff {ns : List Nat} (h : ns ≠ []) (start : Nat) :
    ns.min? = some (ns.foldl min start) ↔ ∃ n ∈ ns, n ≤ start := by
  cases ns with
  | nil => exact absurd rfl h
  | cons n ns =>
      have hmin : (n :: ns).min? = some (ns.foldl min n) := List.min?_cons'
      have hmem := List.min?_eq_some_iff.mp hmin
      have hfold : (n :: ns).foldl min start = min start (ns.foldl min n) := by
        rw [List.foldl_cons, List.foldl_assoc]
      rw [hmin, hfold, Option.some.injEq, eq_comm, min_eq_right_iff]
      constructor
      · intro hle
        exact ⟨_, hmem.1, hle⟩
      · intro hex
        cases hex with
        | intro m hm => exact Nat.le_trans (hmem.2 m hm.1) hm.2

/-- The item of `key` holds the aggregates of what was reported for it, and the same for every
order of the reports. -/
def TrueAggregates (s : CStater) (key : Bytes) (calls : List Call) : Prop :=
  let xs := samples key calls
  ∃ stat, (s.run calls).stat.find key = some stat ∧
    (costs xs).max? = some stat.max_cost_usec ∧ (costs xs).min? = some stat.min_cost_usec ∧
    stat.total_cost_usec = (costs xs).sum ∧ stat.total_num = (xs.map Sample.count).sum ∧
    stat.threshold1_num = countAt s.threshold1 xs ∧
    stat.threshold2_num = countAt s.threshold2 xs ∧
    stat.threshold3_num = countAt s.threshold3 xs ∧
    ∀ calls', Reports key calls' → (samples key calls').Perm xs →
      ∃ stat', (s.run calls').stat.find key = some stat' ∧ Tally.ofItem stat' = Tally.ofItem stat

/-- The item after a run with something to report. -/
theorem exists_item (hnone : s.stat.find key = none) (h : Reports key calls)
    (hsome : samples key calls ≠ [])
    (hsmall : ∀ x ∈ samples key calls, x.cost < 18446744073709551616) :
    ∃ stat, (s.run calls).stat.find key = some stat ∧
      Tally.ofItem stat = tally s (samples key calls) := by
  have hfind := find_run hnone h hsmall
  rw [if_neg hsome] at hfind
  exact Option.map_eq_some_iff.mp hfind

/-- Statistics are aggregates exactly when the smallest cost is at most one hour. -/
theorem trueAggregates_iff (s : CStater) (key : Bytes) (calls : List Call)
    (hnone : s.stat.find key = none) (h : Reports key calls) (hsome : samples key calls ≠ [])
    (hcost : (costs (samples key calls)).sum < 18446744073709551616)
    (hcount : ((samples key calls).map Sample.count).sum < 4294967296) :
    TrueAggregates s key calls ↔ ∃ c ∈ costs (samples key calls), c ≤ 3600000000 := by
  have hsmall : ∀ x ∈ samples key calls, x.cost < 18446744073709551616 := fun x hx =>
    Nat.lt_of_le_of_lt (le_sum_of_mem (List.mem_map_of_mem hx)) hcost
  obtain ⟨stat, hfind, htally⟩ := exists_item hnone h hsome hsmall
  have hne : costs (samples key calls) ≠ [] := by simpa [costs] using hsome
  have hat : ∀ threshold, u32 (countAt threshold (samples key calls)) =
      countAt threshold (samples key calls) := fun threshold =>
    u32_of_lt (Nat.lt_of_le_of_lt (countAt_le threshold _) hcount)
  have horder : ∀ calls', Reports key calls' → (samples key calls').Perm (samples key calls) →
      ∃ stat', (s.run calls').stat.find key = some stat' ∧
        Tally.ofItem stat' = Tally.ofItem stat := by
    intro calls' h' hperm
    have hsome' : samples key calls' ≠ [] := fun hnil => by
      rw [hnil] at hperm
      exact hsome hperm.symm.eq_nil
    obtain ⟨stat', hfind', htally'⟩ := exists_item hnone h' hsome' fun x hx =>
      hsmall x (hperm.mem_iff.mp hx)
    exact ⟨stat', hfind', by rw [htally', htally, tally_perm hperm]⟩
  have hfields := htally
  simp only [Tally.ofItem, tally, Tally.mk.injEq, hat, u32_of_lt hcount] at hfields
  obtain ⟨htotal, hmax, hmin, hnum, h1, h2, h3⟩ := hfields
  have htotal' : stat.total_cost_usec = (costs (samples key calls)).sum :=
    htotal.trans (Nat.mod_eq_of_lt hcost)
  rw [← min?_eq_foldl_iff hne, ← hmin]
  constructor
  · intro hagg
    obtain ⟨stat₂, hfind₂, -, hmin₂, -⟩ := hagg
    rw [hfind] at hfind₂
    cases hfind₂
    exact hmin₂
  · intro hmin'
    exact ⟨stat, hfind, by rw [hmax, max?_eq_foldl hne], hmin', htotal', hnum, h1, h2, h3, horder⟩

/-- Two reports with other keys between them. -/
theorem trueAggregates_iff_two :
    TrueAggregates (new.Init 10 100 1000) [97]
      [.addStat [97] ⟨5, 0⟩ ⟨5, 250⟩ 2 ⟨6, 0⟩, .beginStat [98] ⟨6, 1⟩, .addCount [98] 7 ⟨6, 2⟩,
        .addStat [97] ⟨7, 999999⟩ ⟨8, 3⟩ 1 ⟨9, 0⟩, .delStat [98]] := by
  refine (trueAggregates_iff _ [97] _ rfl ?_ (by decide) (by decide) (by decide)).mpr (by decide)
  intro c hc hkey
  simp only [List.mem_cons, List.not_mem_nil, or_false] at hc
  rcases hc with rfl | rfl | rfl | rfl | rfl
  · exact ⟨_, _, _, _, rfl, by decide⟩
  · exact absurd hkey (by decide)
  · exact absurd hkey (by decide)
  · exact ⟨_, _, _, _, rfl, by decide⟩
  · exact absurd hkey (by decide)

/-- When all there is took two hours, the smallest cost is still one hour. -/
theorem trueAggregates_false :
    Reports [97] [.addStat [97] ⟨0, 0⟩ ⟨7200, 0⟩ 1 ⟨7200, 0⟩] ∧
      ((new.run [.addStat [97] ⟨0, 0⟩ ⟨7200, 0⟩ 1 ⟨7200, 0⟩]).stat.find [97]).map
        (·.min_cost_usec) = some 3600000000 ∧
      ¬ TrueAggregates new [97] [.addStat [97] ⟨0, 0⟩ ⟨7200, 0⟩ 1 ⟨7200, 0⟩] := by
  have hmin : ((new.run [.addStat [97] ⟨0, 0⟩ ⟨7200, 0⟩ 1 ⟨7200, 0⟩]).stat.find [97]).map
      (·.min_cost_usec) = some 3600000000 := by decide +kernel
  refine ⟨?_, hmin, ?_⟩
  · intro c hc _
    obtain rfl := List.mem_singleton.mp hc
    exact ⟨_, _, _, _, rfl, by decide⟩
  · intro h
    obtain ⟨stat, hfind, -, hmin₂, -⟩ := h
    rw [hfind, Option.map_some, Option.some.injEq] at hmin
    rw [hmin] at hmin₂
    exact absurd hmin₂ (by decide)

end

end CStater

end CommonCc
