import CommonCc.Net.Session.Model

/-!
# Every session completes once

The sessions that `Set` has accepted are, over any run, those still registered, those that
`Get` has returned and those that `CheckExpire` has expired, each of them once.
-/

namespace CommonCc

namespace CSessionMgr

variable {σ : Type}

/-! ## What has happened -/

/-- The session that a call passes to `Set`. -/
def Call.session : Call σ → Option σ
  | .set _ timer_info _ _ => some timer_info
  | _ => none

/-- The sequence number and the session of a `Set` that returned 0. -/
def acceptedBy : Call σ × Answer σ → Option (Nat × σ)
  | (.set msg_seq timer_info _ _, .set ret) => if ret = 0 then some (msg_seq, timer_info) else none
  | _ => none

/-- The session of a `Get` that returned 0. -/
def returnedBy : Call σ × Answer σ → Option σ
  | (.get _, .get ret timer_info) => if ret = 0 then timer_info else none
  | _ => none

/-- The sessions on which a `CheckExpire` called `OnExpire`, and whether it deleted them. -/
def expiredBy : Call σ × Answer σ → List (σ × Bool)
  | (.checkExpire _ _ _, .checkExpire expired) => expired
  | _ => []

def accepted (history : List (Call σ × Answer σ)) : List (Nat × σ) := history.filterMap acceptedBy

def returned (history : List (Call σ × Answer σ)) : List σ := history.filterMap returnedBy

def expired (history : List (Call σ × Answer σ)) : List (σ × Bool) := history.flatMap expiredBy

def deleted (history : List (Call σ × Answer σ)) : List σ :=
  ((expired history).filter Prod.snd).map Prod.fst

theorem acceptedBy_session {e : Call σ × Answer σ} {p : Nat × σ} (h : acceptedBy e = some p) :
    e.1.session = some p.2 := by
  unfold acceptedBy at h
  split at h
  · split at h
    · cases h
      rfl
    · cases h
  · cases h

/-- Only sessions passed to `Set` are accepted. -/
theorem accepted_sublist (history : List (Call σ × Answer σ)) :
    ((accepted history).map Prod.snd).Sublist ((history.map Prod.fst).filterMap Call.session) := by
  induction history with
  | nil => exact List.Sublist.refl _
  | cons e history ih =>
      rw [accepted, List.filterMap_cons, List.map_cons, List.filterMap_cons]
      cases he : acceptedBy e with
      | none =>
          cases e.1.session with
          | none => exact ih
          | some timer_info => exact ih.cons timer_info
      | some p =>
          rw [acceptedBy_session he]
          exact ih.cons_cons p.2

/-! ## The table -/

theorem find_eq_some {m : CSessionMgr σ} (hkeys : (m.mp_timer_info.map Prod.fst).Nodup)
    {msg_seq : Nat} {timer_info : σ} :
    m.find msg_seq = some timer_info ↔ (msg_seq, timer_info) ∈ m.mp_timer_info := by
  unfold find
  constructor
  · intro h
    obtain ⟨e, he, hsnd⟩ := Option.map_eq_some_iff.mp h
    have hfst := List.find?_some he
    have hmem := List.mem_of_find?_eq_some he
    simp only [decide_eq_true_eq] at hfst
    rw [← hfst, ← hsnd]
    exact hmem
  · intro hmem
    have hsingle := withKey_eq_singleton hkeys hmem rfl
    rw [← List.head?_filter]
    exact congrArg (fun l => (List.head? l).map Prod.snd) hsingle

theorem find_eq_none {m : CSessionMgr σ} {msg_seq : Nat} :
    m.find msg_seq = none ↔ ∀ e ∈ m.mp_timer_info, e.1 ≠ msg_seq := by
  simp [find]

/-- The pair is one that `CheckExpire` removes. -/
def isOld (m : CSessionMgr σ) (cur_time : TimeVal) (e : Nat × σ) : Bool := m.tooOld cur_time e.2

/-- The sessions that one pass over `order` expires, and the pairs that it leaves. -/
theorem expireLoop_eq (cur_time : TimeVal) (getDelete : σ → Bool) (m : CSessionMgr σ)
    (order : List (Nat × σ)) :
    (m.expireLoop cur_time getDelete order).1 =
        (order.filter (m.isOld cur_time)).map (fun e => (e.2, getDelete e.2)) ∧
      (m.expireLoop cur_time getDelete order).2.mp_timer_info =
        m.mp_timer_info.filter fun e => e.1 ∉ (order.filter (m.isOld cur_time)).map Prod.fst := by
  induction order generalizing m with
  | nil => simp [expireLoop]
  | cons e order ih =>
      cases e with
      | mk msg_seq timer_info =>
          unfold expireLoop
          by_cases hold : m.tooOld cur_time timer_info = true
          · have hrest := ih (m.erase msg_seq)
            have hsame : (m.erase msg_seq).isOld cur_time = m.isOld cur_time := rfl
            have hfirst : m.isOld cur_time (msg_seq, timer_info) = true := hold
            rw [hsame] at hrest
            rw [if_pos hold, List.filter_cons_of_pos hfirst]
            constructor
            · dsimp only
              rw [hrest.1, List.map_cons]
            · dsimp only
              rw [hrest.2, erase, withoutKey, List.filter_filter]
              apply List.filter_congr
              intro e _
              rw [← Bool.decide_and]
              apply decide_eq_decide.mpr
              rw [List.map_cons, List.mem_cons, not_or, and_comm]
          · have hfirst : ¬ m.isOld cur_time (msg_seq, timer_info) = true := hold
            rw [if_neg hold, List.filter_cons_of_neg hfirst]
            exact ih m

/-- One `CheckExpire` takes exactly the old pairs out of the table, in whatever order it
goes through them. -/
theorem CheckExpire_eq {m : CSessionMgr σ} (hkeys : (m.mp_timer_info.map Prod.fst).Nodup)
    (cur_time : TimeVal) (order : HashOrder σ) (getDelete : σ → Bool) :
    ((m.CheckExpire cur_time order getDelete).1.map Prod.fst).Perm
        ((m.mp_timer_info.filter (m.isOld cur_time)).map Prod.snd) ∧
      (m.CheckExpire cur_time order getDelete).2.mp_timer_info =
        m.mp_timer_info.filter fun e => ¬ m.isOld cur_time e := by
  have hperm := order.property m.mp_timer_info
  have hloop := expireLoop_eq cur_time getDelete m (order.val m.mp_timer_info)
  unfold CheckExpire
  constructor
  · rw [hloop.1, List.map_map]
    exact (hperm.filter _).map _
  · rw [hloop.2]
    apply List.filter_congr
    intro e he
    apply decide_eq_decide.mpr
    rw [not_iff_not]
    constructor
    · intro hmem
      cases List.mem_map.mp hmem with
      | intro e' he' =>
          have hold := List.mem_filter.mp he'.1
          have hsame : e' = e :=
            List.inj_on_of_nodup_map hkeys (hperm.mem_iff.mp hold.1) he he'.2
          exact hsame ▸ hold.2
    · intro hold
      exact List.mem_map.mpr ⟨e, List.mem_filter.mpr ⟨hperm.mem_iff.mpr he, hold⟩, rfl⟩

/-! ## Every run -/

/-- The sessions accepted so far are the registered, the returned and the expired ones. -/
structure Inv (m : CSessionMgr σ) (history : List (Call σ × Answer σ)) : Prop where
  keys : (m.mp_timer_info.map Prod.fst).Nodup
  known : m.mp_timer_info ⊆ accepted history
  parts : ((accepted history).map Prod.snd).Perm
    (m.mp_timer_info.map Prod.snd ++ returned history ++ (expired history).map Prod.fst)

theorem accepted_append (history : List (Call σ × Answer σ)) (e : Call σ × Answer σ) :
    accepted (history ++ [e]) = accepted history ++ (acceptedBy e).toList := by
  cases he : acceptedBy e <;> simp [accepted, he]

theorem returned_append (history : List (Call σ × Answer σ)) (e : Call σ × Answer σ) :
    returned (history ++ [e]) = returned history ++ (returnedBy e).toList := by
  cases he : returnedBy e <;> simp [returned, he]

theorem expired_append (history : List (Call σ × Answer σ)) (e : Call σ × Answer σ) :
    expired (history ++ [e]) = expired history ++ expiredBy e := by
  simp [expired]

theorem init_inv (object : σ → CBaseSession) : Inv (init object) [] where
  keys := List.nodup_nil
  known := List.Subset.refl _
  parts := List.Perm.refl _

variable [DecidableEq σ] {m : CSessionMgr σ} {history : List (Call σ × Answer σ)}

/-- A call and its answer. -/
def event (m : CSessionMgr σ) (c : Call σ) : Call σ × Answer σ := (c, (m.call c).1)

/-- One call moves sessions between the table, the returned and the expired ones, and what
it accepts comes in. -/
theorem Inv.extend (h : Inv m history) {m' : CSessionMgr σ} {e : Call σ × Answer σ}
    (hkeys : (m'.mp_timer_info.map Prod.fst).Nodup)
    (hknown : m'.mp_timer_info ⊆ m.mp_timer_info ++ (acceptedBy e).toList)
    (hparts : (m.mp_timer_info.map Prod.snd ++ (acceptedBy e).toList.map Prod.snd).Perm
      (m'.mp_timer_info.map Prod.snd ++ (returnedBy e).toList ++ (expiredBy e).map Prod.fst)) :
    Inv m' (history ++ [e]) where
  keys := hkeys
  known := by
    intro p hp
    rw [accepted_append]
    cases List.mem_append.mp (hknown hp) with
    | inl hold => exact List.mem_append_left _ (h.known hold)
    | inr hnew => exact List.mem_append_right _ hnew
  parts := by
    rw [accepted_append, returned_append, expired_append]
    apply List.perm_iff_count.mpr
    intro x
    have hbefore := List.perm_iff_count.mp h.parts x
    have hmoved := List.perm_iff_count.mp hparts x
    simp only [List.map_append, List.count_append] at hbefore hmoved ⊢
    omega

theorem Set_taken {msg_seq : Nat} {other : σ} (hfind : m.find msg_seq = some other)
    (timer_info : σ) (gap_ms : Nat) (now : TimeVal) :
    (m.Set msg_seq timer_info gap_ms now).1 = -1 ∧
      (m.Set msg_seq timer_info gap_ms now).2.mp_timer_info = m.mp_timer_info := by
  have hsame : ({ m with object := Function.update m.object timer_info ⟨now, gap_ms, msg_seq⟩ } :
      CSessionMgr σ).find msg_seq = some other := hfind
  simp [CSessionMgr.Set, hsame]

theorem Set_free {msg_seq : Nat} (hfind : m.find msg_seq = none) (timer_info : σ) (gap_ms : Nat)
    (now : TimeVal) :
    (m.Set msg_seq timer_info gap_ms now).1 = 0 ∧
      (m.Set msg_seq timer_info gap_ms now).2.mp_timer_info =
        m.mp_timer_info ++ [(msg_seq, timer_info)] := by
  have hsame : ({ m with object := Function.update m.object timer_info ⟨now, gap_ms, msg_seq⟩ } :
      CSessionMgr σ).find msg_seq = none := hfind
  simp [CSessionMgr.Set, hsame]

theorem Inv.set (h : Inv m history) (msg_seq : Nat) (timer_info : σ) (gap_ms : Nat)
    (now : TimeVal) : Inv (m.call (.set msg_seq timer_info gap_ms now)).2
      (history ++ [m.event (.set msg_seq timer_info gap_ms now)]) := by
  have hreturned : returnedBy (m.event (.set msg_seq timer_info gap_ms now)) = none := rfl
  have hexpired : expiredBy (m.event (.set msg_seq timer_info gap_ms now)) = [] := rfl
  have htable : (m.call (.set msg_seq timer_info gap_ms now)).2.mp_timer_info =
      (m.Set msg_seq timer_info gap_ms now).2.mp_timer_info := rfl
  cases hfind : m.find msg_seq with
  | some other =>
      have hset := Set_taken hfind timer_info gap_ms now
      have haccepted : acceptedBy (m.event (.set msg_seq timer_info gap_ms now)) = none := by
        show (if (m.Set msg_seq timer_info gap_ms now).1 = 0 then _ else _) = _
        rw [hset.1, if_neg (by decide)]
      apply h.extend
      · rw [htable, hset.2]
        exact h.keys
      · rw [htable, hset.2]
        exact List.subset_append_left _ _
      · rw [htable, hset.2, haccepted, hreturned, hexpired]
        simp
  | none =>
      have hset := Set_free hfind timer_info gap_ms now
      have haccepted : acceptedBy (m.event (.set msg_seq timer_info gap_ms now)) =
          some (msg_seq, timer_info) := by
        show (if (m.Set msg_seq timer_info gap_ms now).1 = 0 then _ else _) = _
        rw [hset.1, if_pos rfl]
      apply h.extend
      · rw [htable, hset.2, List.map_append, List.nodup_append]
        refine ⟨h.keys, List.nodup_singleton _, ?_⟩
        intro a ha b hb hab
        cases List.mem_map.mp ha with
        | intro e he =>
            rw [List.map_singleton, List.mem_singleton] at hb
            exact find_eq_none.mp hfind e he.1 (he.2.trans (hab.trans hb))
      · rw [htable, hset.2, haccepted]
        exact List.Subset.refl _
      · rw [htable, hset.2, haccepted, hreturned, hexpired]
        simp

theorem Inv.get (h : Inv m history) (msg_seq : Nat) :
    Inv (m.call (.get msg_seq)).2 (history ++ [m.event (.get msg_seq)]) := by
  have haccepted : acceptedBy (m.event (.get msg_seq)) = none := rfl
  have hexpired : expiredBy (m.event (.get msg_seq)) = [] := rfl
  cases hfind : m.find msg_seq with
  | none =>
      have hget : m.Get msg_seq = ((-1, none), m) := by simp [Get, hfind]
      have hreturned : returnedBy (m.event (.get msg_seq)) = none := by
        simp [event, call, hget, returnedBy]
      have hcall : (m.call (.get msg_seq)).2 = m := by simp [call, hget]
      rw [hcall]
      apply h.extend h.keys (List.subset_append_left _ _)
      rw [haccepted, hreturned, hexpired]
      simp
  | some timer_info =>
      have hget : m.Get msg_seq = ((0, some timer_info), m.erase msg_seq) := by simp [Get, hfind]
      have hreturned : returnedBy (m.event (.get msg_seq)) = some timer_info := by
        simp [event, call, hget, returnedBy]
      have hcall : (m.call (.get msg_seq)).2 = m.erase msg_seq := by simp [call, hget]
      have hmem := (find_eq_some h.keys).mp hfind
      have hone : withKey Prod.fst msg_seq m.mp_timer_info = [(msg_seq, timer_info)] :=
        withKey_eq_singleton h.keys hmem rfl
      rw [hcall]
      apply h.extend
      · exact nodup_map_withoutKey h.keys msg_seq
      · intro e he
        exact List.mem_append_left _ (mem_withoutKey.mp he).1
      · rw [haccepted, hreturned, hexpired]
        have hsplit : (withKey Prod.fst msg_seq m.mp_timer_info ++
            withoutKey Prod.fst msg_seq m.mp_timer_info).Perm m.mp_timer_info :=
          withKey_append_withoutKey_perm msg_seq m.mp_timer_info
        rw [hone] at hsplit
        have hsessions := hsplit.map Prod.snd
        rw [List.map_append] at hsessions
        simpa [erase] using hsessions.symm.trans List.perm_append_comm

theorem Inv.checkExpire (h : Inv m history) (cur_time : TimeVal) (order : HashOrder σ)
    (getDelete : σ → Bool) : Inv (m.call (.checkExpire cur_time order getDelete)).2
      (history ++ [m.event (.checkExpire cur_time order getDelete)]) := by
  have haccepted : acceptedBy (m.event (.checkExpire cur_time order getDelete)) = none := rfl
  have hreturned : returnedBy (m.event (.checkExpire cur_time order getDelete)) = none := rfl
  have hexpired : expiredBy (m.event (.checkExpire cur_time order getDelete)) =
      (m.CheckExpire cur_time order getDelete).1 := rfl
  have hcheck := CheckExpire_eq h.keys cur_time order getDelete
  have htable : (m.call (.checkExpire cur_time order getDelete)).2.mp_timer_info =
      m.mp_timer_info.filter fun e => ¬ m.isOld cur_time e := hcheck.2
  apply h.extend
  · rw [htable]
    exact h.keys.sublist (List.filter_sublist.map _)
  · rw [htable]
    exact fun e he => List.mem_append_left _ (List.mem_filter.mp he).1
  · rw [haccepted, hreturned, hexpired, htable]
    have hsplit := (List.filter_append_perm (m.isOld cur_time) m.mp_timer_info).map Prod.snd
    rw [List.map_append] at hsplit
    have hall := hsplit.symm.trans List.perm_append_comm
    simpa using hall.trans (hcheck.1.symm.append_left _)

/-- One case for each call. -/
theorem Inv.call (h : Inv m history) (c : Call σ) :
    Inv (m.call c).2 (history ++ [m.event c]) := by
  cases c with
  | set msg_seq timer_info gap_ms now => exact h.set msg_seq timer_info gap_ms now
  | get msg_seq => exact h.get msg_seq
  | checkExpire cur_time order getDelete => exact h.checkExpire cur_time order getDelete

omit [DecidableEq σ] in
/-- What `CheckExpire` has deleted it had expired, and `GetDelete` had answered so. -/
theorem expired_flag {cur_time : TimeVal} {order : HashOrder σ} {getDelete : σ → Bool} {x : σ}
    {b : Bool} (h : (x, b) ∈ (m.CheckExpire cur_time order getDelete).1) : b = getDelete x := by
  unfold CheckExpire at h
  rw [(expireLoop_eq cur_time getDelete m _).1] at h
  cases List.mem_map.mp h with
  | intro e he =>
      cases he.2
      rfl

/-- The invariant at the end of a run, and where the answers come from. -/
theorem run_inv (object : σ → CBaseSession) (calls : List (Call σ)) :
    Inv (runSpec CSessionMgr.call (init object) calls).2
        (calls.zip (runSpec CSessionMgr.call (init object) calls).1) ∧
      ∀ e ∈ calls.zip (runSpec CSessionMgr.call (init object) calls).1,
        ∃ m : CSessionMgr σ, e = m.event e.1 := by
  constructor
  · exact runSpec_history (fun _ _ c h => h.call c) (init_inv object) calls
  · apply runSpec_history (I := fun _ h => ∀ e ∈ h, ∃ m : CSessionMgr σ, e = m.event e.1)
      (t := init object) (h := [])
    · intro m h c hold e he
      cases List.mem_append.mp he with
      | inl he => exact hold e he
      | inr he =>
          rw [List.mem_singleton] at he
          exact ⟨m, by rw [he]; rfl⟩
    · exact fun _ he => absurd he List.not_mem_nil

/-- A registered session is found, under its own number only. -/
theorem Inv.find_accepted (h : Inv m history) (hnodup : ((accepted history).map Prod.snd).Nodup)
    {msg_seq : Nat} {x : σ} (hx : (msg_seq, x) ∈ accepted history) :
    (m.find msg_seq = some x ∧ (m.mp_timer_info.map Prod.snd).count x = 1) ∨
      ((∀ k, m.find k ≠ some x) ∧ (m.mp_timer_info.map Prod.snd).count x = 0) := by
  have htable : ((m.mp_timer_info.map Prod.snd)).Nodup := by
    have hall := (List.Perm.nodup_iff h.parts).mp hnodup
    rw [List.append_assoc] at hall
    exact (List.nodup_append.mp hall).1
  by_cases hmem : x ∈ m.mp_timer_info.map Prod.snd
  · cases List.mem_map.mp hmem with
    | intro e he =>
        have hsame : e = (msg_seq, x) :=
          List.inj_on_of_nodup_map hnodup (h.known he.1) hx he.2
        exact .inl ⟨(find_eq_some h.keys).mpr (hsame ▸ he.1), List.count_eq_one_of_mem htable hmem⟩
  · refine .inr ⟨fun k hk => hmem ?_, List.count_eq_zero.mpr hmem⟩
    exact List.mem_map.mpr ⟨(k, x), (find_eq_some h.keys).mp hk, rfl⟩

/-- How many times `OnExpire` has been called on a session. -/
def expiries (history : List (Call σ × Answer σ)) (x : σ) : Nat :=
  ((expired history).map Prod.fst).count x

/-- Every session that `Set` has accepted is registered, or it has been returned once, or it
has expired once.  Only expired sessions are deleted, by the answer of `GetDelete`, and none
of them has been returned. -/
structure ExactlyOnce (m : CSessionMgr σ) (history : List (Call σ × Answer σ)) : Prop where
  once : ∀ msg_seq x, (msg_seq, x) ∈ accepted history →
    (m.find msg_seq = some x ∧ (returned history).count x = 0 ∧ expiries history x = 0) ∨
    ((∀ k, m.find k ≠ some x) ∧ (returned history).count x = 1 ∧ expiries history x = 0) ∨
    ((∀ k, m.find k ≠ some x) ∧ (returned history).count x = 0 ∧ expiries history x = 1)
  deleted : ∀ x ∈ deleted history, x ∉ returned history ∧ (∀ k, m.find k ≠ some x) ∧
    expiries history x = 1
  asked : ∀ cur_time order getDelete gone, (Call.checkExpire cur_time order getDelete,
    Answer.checkExpire gone) ∈ history → ∀ x b, (x, b) ∈ gone → b = getDelete x

/-- The three states exclude each other and no session is in none of them, at any time of
every run in which a session is passed to `Set` once at most. -/
theorem exactly_once (object : σ → CBaseSession) (calls : List (Call σ))
    (hset : (calls.filterMap Call.session).Nodup) :
    ExactlyOnce (runSpec CSessionMgr.call (init object) calls).2
      (calls.zip (runSpec CSessionMgr.call (init object) calls).1) := by
  generalize hout : runSpec CSessionMgr.call (init object) calls = out
  generalize hhistory : calls.zip out.1 = history
  have hrun := run_inv object calls
  rw [hout, hhistory] at hrun
  have hinv := hrun.1
  have hcalls : history.map Prod.fst = calls := by
    rw [← hhistory, ← hout]
    exact List.map_fst_zip (Nat.le_of_eq (runSpec_length _ _ _).symm)
  have hnodup : ((accepted history).map Prod.snd).Nodup := by
    have hsub := accepted_sublist history
    rw [hcalls] at hsub
    exact hset.sublist hsub
  have hcount := List.perm_iff_count.mp hinv.parts
  simp only [List.count_append] at hcount
  constructor
  · intro msg_seq x hx
    have hone : ((accepted history).map Prod.snd).count x = 1 :=
      List.count_eq_one_of_mem hnodup (List.mem_map.mpr ⟨_, hx, rfl⟩)
    have hx' := hcount x
    unfold expiries
    cases hinv.find_accepted hnodup hx with
    | inl hin => exact .inl ⟨hin.1, by omega, by omega⟩
    | inr hout =>
        by_cases hret : (returned history).count x = 0
        · exact .inr (.inr ⟨hout.1, hret, by omega⟩)
        · exact .inr (.inl ⟨hout.1, by omega, by omega⟩)
  · intro x hx
    have hexpired : 0 < ((expired history).map Prod.fst).count x := by
      cases List.mem_map.mp hx with
      | intro e he =>
          exact List.count_pos_iff.mpr
            (List.mem_map.mpr ⟨e, (List.mem_filter.mp he.1).1, he.2⟩)
    have hx' := hcount x
    have hle := List.nodup_iff_count_le_one.mp hnodup x
    unfold expiries
    refine ⟨fun hmem => ?_, fun k hk => ?_, by omega⟩
    · have hret := List.count_pos_iff.mpr hmem
      omega
    · have hreg : 0 < (out.2.mp_timer_info.map Prod.snd).count x :=
        List.count_pos_iff.mpr (List.mem_map.mpr ⟨(k, x), (find_eq_some hinv.keys).mp hk, rfl⟩)
      omega
  · intro cur_time order getDelete gone hmem x b hb
    cases hrun.2 _ hmem with
    | intro m hm =>
        have hgone : gone = (m.CheckExpire cur_time order getDelete).1 :=
          Answer.checkExpire.inj (Prod.mk.inj hm).2
        exact expired_flag (m := m) (hgone ▸ hb)

/-- The second session is refused, the third takes the number of the first and expires. -/
theorem exactly_once_three :
    let calls : List (Call Nat) := [.set 1 10 5 ⟨0, 0⟩, .set 1 11 5 ⟨0, 0⟩, .get 1,
      .set 1 12 5 ⟨0, 0⟩, .checkExpire ⟨1, 0⟩ ⟨id, fun _ => List.Perm.refl _⟩ fun _ => true]
    ExactlyOnce (runSpec CSessionMgr.call (init fun _ => ⟨⟨0, 0⟩, 0, 0⟩) calls).2
      (calls.zip (runSpec CSessionMgr.call (init fun _ => ⟨⟨0, 0⟩, 0, 0⟩) calls).1) :=
  exactly_once _ _ (by decide)

end CSessionMgr

end CommonCc
