import CommonCc.Net.Session.ExactlyOnce

/-!
# The time of expiry

`TIME_DIFF_MS` drops a fraction of a millisecond, towards either side when the microseconds of the
two readings are in the wrong order.
-/

namespace CommonCc

/-- The elapsed time in microseconds is less than one millisecond off. -/
theorem TIME_DIFF_MS_close (a b : TimeVal) :
    TIME_DIFF_MS a b * 1000 - 1000 < a.micros - b.micros ∧
      a.micros - b.micros < TIME_DIFF_MS a b * 1000 + 1000 := by
  have hdiv := Int.mul_tdiv_add_tmod (a.tv_usec - b.tv_usec) 1000
  have hlt := Int.tmod_lt_of_pos (a.tv_usec - b.tv_usec) (b := 1000) (by decide)
  have hgt := Int.lt_tmod_of_pos (a.tv_usec - b.tv_usec) (b := 1000) (by decide)
  unfold TIME_DIFF_MS TimeVal.micros
  constructor
  · omega
  · omega

/-- Nothing overflows a `time_t` of 64 bits while the readings are less than 292 million years
apart. -/
theorem TIME_DIFF_MS_fits {a b : TimeVal} (ha : 0 ≤ a.tv_usec ∧ a.tv_usec < 1000000)
    (hb : 0 ≤ b.tv_usec ∧ b.tv_usec < 1000000) (hlow : -9223372036854774 ≤ a.tv_sec - b.tv_sec)
    (hhigh : a.tv_sec - b.tv_sec ≤ 9223372036854774) :
    (-9223372036854775808 ≤ (a.tv_sec - b.tv_sec) * 1000 ∧
      (a.tv_sec - b.tv_sec) * 1000 < 9223372036854775808) ∧
    -9223372036854775808 ≤ TIME_DIFF_MS a b ∧ TIME_DIFF_MS a b < 9223372036854775808 := by
  have hclose := TIME_DIFF_MS_close a b
  unfold TimeVal.micros at hclose
  refine ⟨⟨by omega, by omega⟩, ?_, ?_⟩
  · omega
  · omega

namespace CSessionMgr

variable {σ : Type} {m : CSessionMgr σ} {timer_info : σ}

/-- The exact time since the session was set, in microseconds. -/
def elapsed (m : CSessionMgr σ) (cur_time : TimeVal) (timer_info : σ) : Int :=
  cur_time.micros - (m.object timer_info).last_time.micros

theorem tooOld_of_elapsed {cur_time : TimeVal}
    (h : ((m.object timer_info).gap + 1) * 1000 ≤ m.elapsed cur_time timer_info) :
    m.tooOld cur_time timer_info = true := by
  have hclose := (TIME_DIFF_MS_close cur_time (m.object timer_info).last_time).2
  unfold CSessionMgr.elapsed at h
  rw [CSessionMgr.tooOld, decide_eq_true_eq]
  omega

theorem not_tooOld_of_elapsed {cur_time : TimeVal}
    (h : m.elapsed cur_time timer_info ≤ (m.object timer_info).gap * 1000) :
    ¬ m.tooOld cur_time timer_info = true := by
  have hclose := (TIME_DIFF_MS_close cur_time (m.object timer_info).last_time).1
  unfold CSessionMgr.elapsed at h
  rw [CSessionMgr.tooOld, decide_eq_true_eq]
  omega

theorem expireLoop_object (cur_time : TimeVal) (getDelete : σ → Bool) (m : CSessionMgr σ)
    (order : List (Nat × σ)) : (m.expireLoop cur_time getDelete order).2.object = m.object := by
  induction order generalizing m with
  | nil => rfl
  | cons e order ih =>
      unfold expireLoop
      split
      · exact ih (m.erase e.1)
      · exact ih m

/-- `OnExpire` is called once for each pair that leaves the table. -/
theorem CheckExpire_perm (hkeys : (m.mp_timer_info.map Prod.fst).Nodup) (cur_time : TimeVal)
    (order : HashOrder σ) (getDelete : σ → Bool) :
    ((m.CheckExpire cur_time order getDelete).1.map Prod.fst ++
      (m.CheckExpire cur_time order getDelete).2.mp_timer_info.map Prod.snd).Perm
        (m.mp_timer_info.map Prod.snd) := by
  have hcheck := CheckExpire_eq hkeys cur_time order getDelete
  have hsplit := (List.filter_append_perm (m.isOld cur_time) m.mp_timer_info).map Prod.snd
  rw [List.map_append] at hsplit
  rw [hcheck.2]
  refine (hcheck.1.append_right _).trans ?_
  simpa using hsplit

/-- A session that is registered once is not looked at again after it has expired, when it may be
deleted. -/
theorem CheckExpire_once (hkeys : (m.mp_timer_info.map Prod.fst).Nodup)
    (hsessions : (m.mp_timer_info.map Prod.snd).Nodup) (cur_time : TimeVal) (order : HashOrder σ)
    (getDelete : σ → Bool) :
    ((m.CheckExpire cur_time order getDelete).1.map Prod.fst).Nodup ∧
      ∀ x ∈ (m.CheckExpire cur_time order getDelete).1.map Prod.fst,
        x ∉ (m.CheckExpire cur_time order getDelete).2.mp_timer_info.map Prod.snd := by
  have hperm := CheckExpire_perm hkeys cur_time order getDelete
  have hnodup := List.nodup_append.mp (hperm.nodup_iff.mpr hsessions)
  exact ⟨hnodup.1, fun x hx hmem => hnodup.2.2 x hx x hmem rfl⟩

end CSessionMgr

end CommonCc
