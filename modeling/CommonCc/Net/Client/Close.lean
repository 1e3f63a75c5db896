import CommonCc.Lib.SortedMap
import CommonCc.Lib.Transition
import Mathlib.Data.List.Nodup
import Mathlib.Logic.Function.Basic

/-!
# Closing connections

`OnClose` drops a connection from the map, calls `CEpoll::Del` and closes the descriptor.
`Del` closes it too, by its default argument, when the descriptor is in the epoll set.
Other threads open and close descriptors between these steps.

A round of events can hold a second event for a connection that `OnClose` has deleted.
What the code does then is undefined, and such a call is no step here.
-/

namespace CommonCc

/-! ## Descriptors -/

/-- Who opened a descriptor: the client for one of its connections, counted from 0, or
another part of the process. -/
inductive Owner where
  | connection (id : Nat)
  | other
deriving Repr, DecidableEq

/-- A `client_data_t`, as far as `OnClose` reads it. -/
structure Connection where
  id : Nat
  fd : Nat
deriving Repr, DecidableEq

/-- Where the client thread stands. -/
inductive ClosePhase where
  | idle
  /-- In `OnClose`, before the loop over `m_connects`. -/
  | erase (data : Connection)
  /-- Before `epoll_ctl` in `Del`. -/
  | del (data : Connection)
  /-- In `Del`, before the `close` for `is_close`. -/
  | delClose (data : Connection)
  /-- Before the `close` of `OnClose`, after a `Del` that failed. -/
  | close (data : Connection)
  /-- Before the `close` of `OnClose`, after a `Del` that closed. -/
  | closeAgain (data : Connection)
  /-- In the destructor. -/
  | destroy
deriving Repr, DecidableEq

/-- The client and the descriptors of the process.  `closes` are the calls of `close` that
the client has made, with what each of them closed. -/
structure CloseState where
  table : Nat → Option Owner
  epoll : List Nat
  m_connects : List (Nat × Connection)
  opened : Nat
  phase : ClosePhase
  closes : List (Connection × Option Owner)

inductive CloseAct where
  /-- `Connect` opens a connection for a new address. -/
  | connect (key fd : Nat)
  /-- `OnQueue` puts a new connection into the epoll set. -/
  | add (key : Nat)
  /-- `OnSend` or `OnRecv` calls `OnClose`. -/
  | onClose (key : Nat)
  /-- The destructor begins. -/
  | destroy
  /-- The client thread goes on in `OnClose` or in the destructor. -/
  | next
  /-- Another thread opens a descriptor. -/
  | openOther (fd : Nat)
  /-- Another thread closes a descriptor of its own. -/
  | closeOther (fd : Nat)
deriving Repr, DecidableEq

namespace CloseState

/-- A client without connections in a process with the descriptors `taken`. -/
def fresh (taken : Nat → Bool) : CloseState where
  table := fun fd => if taken fd then some .other else none
  epoll := []
  m_connects := []
  opened := 0
  phase := .idle
  closes := []

/-- The number that the kernel hands out next. -/
def Lowest (s : CloseState) (fd : Nat) : Prop :=
  s.table fd = none ∧ ∀ n < fd, s.table n ≠ none

instance (s : CloseState) (fd : Nat) : Decidable (s.Lowest fd) :=
  inferInstanceAs (Decidable (_ ∧ ∀ n < fd, _))

/-- `close(data->fd)`.  The kernel takes a closed descriptor out of the epoll set. -/
def closeFd (s : CloseState) (data : Connection) : CloseState :=
  { s with
    table := Function.update s.table data.fd none
    epoll := s.epoll.filter (· ≠ data.fd)
    closes := s.closes ++ [(data, s.table data.fd)] }

/-- One step of the client thread in `OnClose` or in the destructor. -/
def next (s : CloseState) : Option CloseState :=
  match s.phase with
  | .idle => none
  | .erase data =>
      some { s with
        m_connects := s.m_connects.filter fun p => data.fd ≠ p.2.fd
        phase := .del data }
  | .del data =>
      if data.fd ∈ s.epoll then
        some { s with epoll := s.epoll.filter (· ≠ data.fd), phase := .delClose data }
      else some { s with phase := .close data }
  | .delClose data => some { s.closeFd data with phase := .closeAgain data }
  | .close data => some { s.closeFd data with phase := .idle }
  | .closeAgain data => some { s.closeFd data with phase := .idle }
  | .destroy =>
      match s.m_connects with
      | [] => none
      | p :: rest => some { s.closeFd p.2 with m_connects := rest }

def step (s : CloseState) : CloseAct → Option CloseState
  | .connect key fd =>
      if s.phase = .idle ∧ findKey key s.m_connects = none ∧ s.Lowest fd then
        some { s with
          table := Function.update s.table fd (some (.connection s.opened))
          m_connects := insertOrAssign key ⟨s.opened, fd⟩ s.m_connects
          opened := s.opened + 1 }
      else none
  | .add key =>
      if s.phase = .idle then
        (findKey key s.m_connects).map fun data =>
          { s with epoll := if data.fd ∈ s.epoll then s.epoll else data.fd :: s.epoll }
      else none
  | .onClose key =>
      if s.phase = .idle then
        (findKey key s.m_connects).map fun data => { s with phase := .erase data }
      else none
  | .destroy => if s.phase = .idle then some { s with phase := .destroy } else none
  | .next => s.next
  | .openOther fd =>
      if s.Lowest fd then some { s with table := Function.update s.table fd (some .other) }
      else none
  | .closeOther fd =>
      if s.table fd = some .other then some { s with table := Function.update s.table fd none }
      else none

/-! ## What is promised -/

/-- The calls of `close` for a connection. -/
def closesOf (s : CloseState) (id : Nat) : List (Connection × Option Owner) :=
  s.closes.filter fun c => c.1.id = id

/-- The client closes each connection at most once, and nothing of anyone else. -/
structure ClosesOwn (s : CloseState) : Prop where
  once : ∀ id, (s.closesOf id).length ≤ 1
  own : ∀ c ∈ s.closes, ∀ owner, c.2 = some owner → owner = .connection c.1.id

/-- The next step of the client is the `close` of `OnClose` behind a `Del` that has closed. -/
def again (s : CloseState) : Bool :=
  match s.phase with
  | .closeAgain _ => true
  | _ => false

/-- The step is not such a second `close`. -/
def NotAgain (s : CloseState) (a : CloseAct) : Prop := a = .next → s.again = false

instance (s : CloseState) (a : CloseAct) : Decidable (s.NotAgain a) :=
  inferInstanceAs (Decidable (_ → _))

section Once

variable {s s' s₁ : CloseState} {a : CloseAct} {data d : Connection}

/-- The connection is open under its number and was not closed. -/
structure Open (s : CloseState) (d : Connection) : Prop where
  table : s.table d.fd = some (.connection d.id)
  id_lt : d.id < s.opened
  closes : ∀ c ∈ s.closes, c.1.id ≠ d.id

/-- What is known where the client thread stands. -/
def AtPhase (s : CloseState) : ClosePhase → Prop
  | .idle => True
  | .erase data => ∃ key, (key, data) ∈ s.m_connects
  | .del data => s.Open data ∧ ∀ p ∈ s.m_connects, p.2.id ≠ data.id
  | .delClose data => s.Open data ∧ ∀ p ∈ s.m_connects, p.2.id ≠ data.id
  | .close data => s.Open data ∧ ∀ p ∈ s.m_connects, p.2.id ≠ data.id
  | .closeAgain data => ∃ c ∈ s.closes, c.1.id = data.id
  | .destroy => True

/-- The connections in the map are open, and what was closed was closed once. -/
structure Inv (s : CloseState) : Prop where
  live : ∀ p ∈ s.m_connects, s.Open p.2
  distinct : (s.m_connects.map fun p => p.2.id).Nodup
  closed : ∀ c ∈ s.closes, c.1.id < s.opened
  promise : s.ClosesOwn
  phase : s.AtPhase s.phase

theorem fresh_inv (taken : Nat → Bool) : (fresh taken).Inv where
  live := fun _ hp => absurd hp List.not_mem_nil
  distinct := List.nodup_nil
  closed := fun _ hc => absurd hc List.not_mem_nil
  promise := ⟨fun _ => Nat.zero_le _, fun _ hc => absurd hc List.not_mem_nil⟩
  phase := trivial

/-! ## Closing a descriptor -/

/-- Two open connections with different numbers have different descriptors. -/
theorem Open.fd_ne (h : s.Open data) (h' : s.Open d) (hne : d.id ≠ data.id) : d.fd ≠ data.fd := by
  intro hfd
  have htable := h'.table
  rw [hfd, h.table] at htable
  exact hne (Owner.connection.inj (Option.some.inj htable)).symm

theorem Open.closeFd (h : s.Open data) (h' : s.Open d) (hne : d.id ≠ data.id) :
    (s.closeFd data).Open d := by
  constructor
  · exact (Function.update_of_ne (h.fd_ne h' hne) _ _).trans h'.table
  · exact h'.id_lt
  · intro c hc
    cases List.mem_append.mp hc with
    | inl hold => exact h'.closes c hold
    | inr hnew =>
        rw [List.mem_singleton.mp hnew]
        exact Ne.symm hne

theorem closesOf_closeFd (s : CloseState) (data : Connection) (id : Nat) :
    (s.closeFd data).closesOf id =
      s.closesOf id ++ if data.id = id then [(data, s.table data.fd)] else [] := by
  by_cases h : data.id = id <;> simp [closesOf, CloseState.closeFd, List.filter_append, h]

/-- The first `close` of an open connection. -/
theorem ClosesOwn.closeFd (h : s.ClosesOwn) (hopen : s.Open data) : (s.closeFd data).ClosesOwn := by
  constructor
  · intro id
    rw [closesOf_closeFd]
    by_cases hid : data.id = id
    · have hnone : s.closesOf id = [] :=
        List.filter_eq_nil_iff.mpr fun c hc => by simpa [← hid] using hopen.closes c hc
      rw [hnone, if_pos hid]
      exact Nat.le_refl 1
    · rw [if_neg hid, List.append_nil]
      exact h.once id
  · intro c hc owner howner
    cases List.mem_append.mp hc with
    | inl hold => exact h.own c hold owner howner
    | inr hnew =>
        rw [List.mem_singleton.mp hnew] at howner ⊢
        exact Option.some.inj (howner.symm.trans hopen.table)

theorem Inv.closed_closeFd (h : s.Inv) (hopen : s.Open data) :
    ∀ c ∈ (s.closeFd data).closes, c.1.id < s.opened := by
  intro c hc
  cases List.mem_append.mp hc with
  | inl hold => exact h.closed c hold
  | inr hnew =>
      rw [List.mem_singleton.mp hnew]
      exact hopen.id_lt

/-- The close of a connection that is in the map no more. -/
theorem Inv.close (h : s.Inv) (hopen : s.Open data) (hout : ∀ p ∈ s.m_connects, p.2.id ≠ data.id)
    {phase : ClosePhase} (hphase : AtPhase { s.closeFd data with phase := phase } phase) :
    Inv { s.closeFd data with phase := phase } where
  live := fun p hp => by
    have hp' := hopen.closeFd (h.live p hp) (hout p hp)
    exact ⟨hp'.table, hp'.id_lt, hp'.closes⟩
  distinct := h.distinct
  closed := h.closed_closeFd hopen
  promise := by
    have hp := h.promise.closeFd hopen
    exact ⟨hp.once, hp.own⟩
  phase := hphase

/-! ## One step -/

/-- A step that closes nothing and leaves the open connections open. -/
theorem Inv.of_open (h : s.Inv) (hconnects : s'.m_connects.Sublist s.m_connects)
    (hcloses : s'.closes = s.closes) (hopened : s'.opened = s.opened)
    (hopen : ∀ d, s.Open d → s'.Open d) (hphase : s'.AtPhase s'.phase) : s'.Inv where
  live := fun p hp => hopen p.2 (h.live p (hconnects.subset hp))
  distinct := h.distinct.sublist (hconnects.map fun p => p.2.id)
  closed := by
    rw [hcloses, hopened]
    exact h.closed
  promise := by
    have hp := h.promise
    constructor
    · intro id
      have hid := hp.once id
      rwa [closesOf, ← hcloses] at hid
    · rw [hcloses]
      exact hp.own
  phase := hphase

theorem AtPhase.of_open {phase : ClosePhase} (h : s.AtPhase phase)
    (hconnects : s'.m_connects = s.m_connects) (hcloses : s'.closes = s.closes)
    (hopen : ∀ d, s.Open d → s'.Open d) : s'.AtPhase phase := by
  cases phase with
  | idle => trivial
  | erase data =>
      show ∃ key, (key, data) ∈ s'.m_connects
      rw [hconnects]
      exact h
  | del data => exact ⟨hopen data h.1, hconnects.symm ▸ h.2⟩
  | delClose data => exact ⟨hopen data h.1, hconnects.symm ▸ h.2⟩
  | close data => exact ⟨hopen data h.1, hconnects.symm ▸ h.2⟩
  | closeAgain data =>
      show ∃ c ∈ s'.closes, c.1.id = data.id
      rw [hcloses]
      exact h
  | destroy => trivial

/-- A change of the table at a number that no connection has. -/
theorem Open.of_update {fd : Nat} {owner : Option Owner} (h : s.Open d)
    (hfd : ∀ id, s.table fd ≠ some (.connection id)) :
    Open { s with table := Function.update s.table fd owner } d := by
  refine ⟨(Function.update_of_ne (fun hsame => ?_) _ _).trans h.table, h.id_lt, h.closes⟩
  exact hfd d.id (hsame ▸ h.table)

/-- The entry leaves the map, and no other one has its number. -/
theorem Inv.erase (h : s.Inv) {key : Nat} (hmem : (key, data) ∈ s.m_connects) :
    Inv { s with
      m_connects := s.m_connects.filter fun p => data.fd ≠ p.2.fd
      phase := .del data } := by
  have hopen := h.live _ hmem
  refine h.of_open List.filter_sublist rfl rfl (fun d hd => ⟨hd.1, hd.2, hd.3⟩) ⟨?_, ?_⟩
  · exact ⟨hopen.1, hopen.2, hopen.3⟩
  · intro p hp hid
    have hin := List.mem_filter.mp hp
    have hsame := List.inj_on_of_nodup_map h.distinct hin.1 hmem hid
    have hfd := hin.2
    rw [hsame] at hfd
    simp at hfd

/-- The destructor closes the first connection. -/
theorem Inv.destroyFirst (h : s.Inv) (hp : s.phase = .destroy) {p : Nat × Connection}
    {rest : List (Nat × Connection)} (hc : s.m_connects = p :: rest) :
    Inv { s.closeFd p.2 with m_connects := rest } := by
  have hopen := h.live p (hc ▸ List.mem_cons_self)
  have hdistinct := h.distinct
  rw [hc, List.map_cons, List.nodup_cons] at hdistinct
  have hout : ∀ q ∈ rest, q.2.id ≠ p.2.id := fun q hq hid =>
    hdistinct.1 (hid ▸ List.mem_map_of_mem hq)
  have hrest : Inv { s with m_connects := rest } :=
    h.of_open (hc ▸ List.sublist_cons_self p rest) rfl rfl (fun d hd => ⟨hd.1, hd.2, hd.3⟩) (by
      show AtPhase _ s.phase
      rw [hp]
      trivial)
  have hclosed := @Inv.close _ p.2 hrest ⟨hopen.1, hopen.2, hopen.3⟩ hout .destroy trivial
  have hsame : ({ s.closeFd p.2 with m_connects := rest } : CloseState) =
      { ({ s with m_connects := rest } : CloseState).closeFd p.2 with phase := .destroy } := by
    rw [← hp]
    rfl
  rw [hsame]
  exact hclosed

/-- A new connection under a number that was free. -/
theorem Inv.connected {fd : Nat} (h : s.Inv) (hidle : s.phase = .idle) (hlow : s.Lowest fd)
    (key : Nat) :
    Inv { s with
      table := Function.update s.table fd (some (.connection s.opened))
      m_connects := insertOrAssign key ⟨s.opened, fd⟩ s.m_connects
      opened := s.opened + 1 } where
  live := by
    have hfree : ∀ id, s.table fd ≠ some (.connection id) := fun id hid => by
      rw [hlow.1] at hid
      cases hid
    intro p hp
    cases mem_insertOrAssign hp with
    | inl hnew =>
        rw [hnew]
        exact ⟨Function.update_self .., Nat.lt_succ_self _,
          fun c hc => Nat.ne_of_lt (h.closed c hc)⟩
    | inr hold =>
        have hopen := h.live p hold
        exact ⟨(hopen.of_update hfree).1, Nat.lt_succ_of_lt hopen.id_lt, hopen.closes⟩
  distinct := by
    apply nodup_map_insertOrAssign h.distinct
    intro hmem
    obtain ⟨p, hp, hid⟩ := List.mem_map.mp hmem
    exact absurd hid (Nat.ne_of_lt (h.live p hp).id_lt)
  closed := fun c hc => Nat.lt_succ_of_lt (h.closed c hc)
  promise := ⟨h.promise.once, h.promise.own⟩
  phase := by
    show AtPhase _ s.phase
    rw [hidle]
    trivial

/-- The client thread goes on. -/
theorem Inv.next (h : s.Inv) (hagain : s.again = false) (hs : s.next = some s') : s'.Inv := by
  have hphase := h.phase
  unfold CloseState.next at hs
  cases hp : s.phase with
  | idle =>
      rw [hp] at hs
      cases hs
  | erase data =>
      rw [hp] at hs hphase
      cases hs
      cases hphase with
      | intro key hmem => exact h.erase hmem
  | del data =>
      rw [hp] at hs hphase
      dsimp only at hs
      have hopen : s.Open data ∧ ∀ p ∈ s.m_connects, p.2.id ≠ data.id := hphase
      split at hs
      · cases hs
        exact h.of_open (List.Sublist.refl _) rfl rfl (fun d hd => ⟨hd.1, hd.2, hd.3⟩)
          ⟨⟨hopen.1.1, hopen.1.2, hopen.1.3⟩, hopen.2⟩
      · cases hs
        exact h.of_open (List.Sublist.refl _) rfl rfl (fun d hd => ⟨hd.1, hd.2, hd.3⟩)
          ⟨⟨hopen.1.1, hopen.1.2, hopen.1.3⟩, hopen.2⟩
  | delClose data =>
      rw [hp] at hs hphase
      cases hs
      exact h.close hphase.1 hphase.2
        ⟨(data, s.table data.fd), List.mem_append_right _ (List.mem_singleton.mpr rfl), rfl⟩
  | close data =>
      rw [hp] at hs hphase
      cases hs
      exact h.close hphase.1 hphase.2 trivial
  | closeAgain data =>
      rw [again, hp] at hagain
      cases hagain
  | destroy =>
      rw [hp] at hs
      dsimp only at hs
      cases hc : s.m_connects with
      | nil =>
          rw [hc] at hs
          cases hs
      | cons p rest =>
          rw [hc] at hs
          cases hs
          exact h.destroyFirst hp hc

/-- Every step but a second `close` keeps the invariant. -/
theorem Inv.step (h : s.Inv) (ha : s.NotAgain a) (hs : s.step a = some s') : s'.Inv := by
  cases a with
  | connect key fd =>
      rw [CloseState.step] at hs
      split at hs
      · rename_i hguard
        cases hs
        exact h.connected hguard.1 hguard.2.2 key
      · cases hs
  | add key =>
      rw [CloseState.step] at hs
      split at hs
      · obtain ⟨data, -, rfl⟩ := Option.map_eq_some_iff.mp hs
        exact h.of_open (List.Sublist.refl _) rfl rfl (fun d hd => ⟨hd.1, hd.2, hd.3⟩)
          (h.phase.of_open rfl rfl fun d hd => ⟨hd.1, hd.2, hd.3⟩)
      · cases hs
  | onClose key =>
      rw [CloseState.step] at hs
      split at hs
      · obtain ⟨data, hfind, rfl⟩ := Option.map_eq_some_iff.mp hs
        exact h.of_open (List.Sublist.refl _) rfl rfl (fun d hd => ⟨hd.1, hd.2, hd.3⟩)
          ⟨key, mem_of_findKey hfind⟩
      · cases hs
  | destroy =>
      rw [CloseState.step] at hs
      split at hs
      · cases hs
        exact h.of_open (List.Sublist.refl _) rfl rfl (fun d hd => ⟨hd.1, hd.2, hd.3⟩) trivial
      · cases hs
  | next => exact h.next (ha rfl) hs
  | openOther fd =>
      rw [CloseState.step] at hs
      split at hs
      · rename_i hlow
        cases hs
        have hfree : ∀ id, s.table fd ≠ some (.connection id) := fun id hid => by
          rw [hlow.1] at hid
          cases hid
        exact h.of_open (List.Sublist.refl _) rfl rfl (fun d hd => hd.of_update hfree)
          (h.phase.of_open rfl rfl fun d hd => hd.of_update hfree)
      · cases hs
  | closeOther fd =>
      rw [CloseState.step] at hs
      split at hs
      · rename_i hother
        cases hs
        have hfree : ∀ id, s.table fd ≠ some (.connection id) := fun id hid => by
          rw [hother] at hid
          cases hid
        exact h.of_open (List.Sublist.refl _) rfl rfl (fun d hd => hd.of_update hfree)
          (h.phase.of_open rfl rfl fun d hd => hd.of_update hfree)
      · cases hs

/-! ## Whole runs -/

/-- The calls of `close` are never taken back. -/
theorem next_closes (hs : s.next = some s') : s.closes <+: s'.closes := by
  unfold CloseState.next at hs
  cases hp : s.phase with
  | idle =>
      rw [hp] at hs
      cases hs
  | erase data =>
      rw [hp] at hs
      cases hs
      exact List.prefix_rfl
  | del data =>
      rw [hp] at hs
      dsimp only at hs
      split at hs <;> (cases hs; exact List.prefix_rfl)
  | delClose data | close data | closeAgain data =>
      rw [hp] at hs
      cases hs
      exact List.prefix_append _ _
  | destroy =>
      rw [hp] at hs
      dsimp only at hs
      split at hs
      · cases hs
      · cases hs
        exact List.prefix_append _ _

theorem step_closes (hs : s.step a = some s') : s.closes <+: s'.closes := by
  cases a with
  | next => exact next_closes hs
  | add key | onClose key =>
      rw [CloseState.step, Option.ite_none_right_eq_some] at hs
      obtain ⟨data, -, rfl⟩ := Option.map_eq_some_iff.mp hs.2
      exact List.prefix_rfl
  | connect key fd | destroy | openOther fd | closeOther fd =>
      rw [CloseState.step, Option.ite_none_right_eq_some] at hs
      cases hs.2
      exact List.prefix_rfl

/-- What was promised before more calls of `close`. -/
theorem ClosesOwn.of_prefix (h : s'.ClosesOwn) (hcloses : s.closes <+: s'.closes) :
    s.ClosesOwn where
  once := fun id => (hcloses.sublist.filter _).length_le.trans (h.once id)
  own := fun c hc => h.own c (hcloses.subset hc)

/-- A second `close` breaks the promise. -/
theorem Inv.broken (h : s.Inv) (hagain : s.again = true) (hs : s.next = some s') :
    ¬ s'.ClosesOwn := by
  have hphase := h.phase
  unfold CloseState.next at hs
  unfold again at hagain
  cases hp : s.phase with
  | closeAgain data =>
      rw [hp] at hs hphase
      cases hs
      obtain ⟨c, hc, hid⟩ := hphase
      intro hbroken
      have hone := hbroken.once data.id
      have hsplit := closesOf_closeFd s data data.id
      rw [if_pos rfl] at hsplit
      have hmem : c ∈ s.closesOf data.id := List.mem_filter.mpr ⟨hc, by simpa using hid⟩
      have hlen := congrArg List.length hsplit
      rw [List.length_append, List.length_singleton] at hlen
      have hpos := List.length_pos_of_mem hmem
      have hle : ((s.closeFd data).closesOf data.id).length ≤ 1 := hone
      omega
  | _ =>
      rw [hp] at hagain
      cases hagain

theorem Inv.run_iff (h : s.Inv) {acts : List CloseAct}
    (hrun : runSteps CloseState.step s acts = some s') :
    s'.ClosesOwn ↔ Allowed CloseState.step NotAgain s acts := by
  induction acts generalizing s with
  | nil =>
      cases hrun
      exact iff_of_true h.promise trivial
  | cons a acts ih =>
      cases hs : s.step a with
      | none =>
          rw [runSteps, hs] at hrun
          cases hrun
      | some s₁ =>
          rw [runSteps_cons hs] at hrun
          rw [allowed_cons hs]
          by_cases ha : s.NotAgain a
          · rw [ih (h.step ha hs) hrun]
            exact (and_iff_right ha).symm
          · refine iff_of_false (fun hpromise => ?_) fun hall => ha hall.1
            have hnext : a = .next ∧ s.again = true := by
              simpa [NotAgain] using ha
            rw [hnext.1] at hs
            have hafter : s₁.closes <+: s'.closes :=
              runSteps_preserves (I := fun s => s₁.closes <+: s.closes)
                (fun _ _ _ hpre hstep => hpre.trans (step_closes hstep)) List.prefix_rfl hrun
            exact h.broken hnext.2 hs (hpromise.of_prefix hafter)

end Once

end CloseState

end CommonCc
