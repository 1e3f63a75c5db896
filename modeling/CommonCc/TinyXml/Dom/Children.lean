import CommonCc.TinyXml.Dom.Deletion

/-!
# Children

What each operation on the children of a node does to the pointers, and to the list that they
are for.
-/

namespace CommonCc

namespace TinyXml

open Function (update)

variable {d d' : Dom} {F : Forest} {this x n : Nat} {l as bs cs : List Nat} {loose loose' : Nat → Prop}

namespace Dom

/-- What does not change with the pointers. -/
def nodes (d : Dom) : Nat × (Nat → Bool) × (Nat → DomType) × (Nat → Bytes) :=
  (d.fresh, d.alive, d.type, d.value)

@[simp] theorem setParent_ok (h : d.alive x = true) (p : Option Nat) :
    d.setParent x p = .ok { d with parent := update d.parent x p } := by
  rw [setParent, check_ok h, except_ok_bind]

@[simp] theorem setFirstChild_ok (h : d.alive x = true) (p : Option Nat) :
    d.setFirstChild x p = .ok { d with firstChild := update d.firstChild x p } := by
  rw [setFirstChild, check_ok h, except_ok_bind]

@[simp] theorem setLastChild_ok (h : d.alive x = true) (p : Option Nat) :
    d.setLastChild x p = .ok { d with lastChild := update d.lastChild x p } := by
  rw [setLastChild, check_ok h, except_ok_bind]

@[simp] theorem setPrev_ok (h : d.alive x = true) (p : Option Nat) :
    d.setPrev x p = .ok { d with prev := update d.prev x p } := by
  rw [setPrev, check_ok h, except_ok_bind]

@[simp] theorem setNext_ok (h : d.alive x = true) (p : Option Nat) :
    d.setNext x p = .ok { d with next := update d.next x p } := by
  rw [setNext, check_ok h, except_ok_bind]

/-- The link behind `before`, or the first child, goes to `dst`. -/
def linkBehind (d : Dom) (this : Nat) (before dst : Option Nat) : Dom :=
  { d with
    next := linkNext d.next before dst
    firstChild := update d.firstChild this (linkHead (d.firstChild this) before dst) }

/-- The link in front of `behind`, or the last child, goes to `dst`. -/
def linkBefore (d : Dom) (this : Nat) (behind dst : Option Nat) : Dom :=
  { d with
    prev := linkNext d.prev behind dst
    lastChild := update d.lastChild this (linkHead (d.lastChild this) behind dst) }

/-- A new node between two neighbours. -/
def put (d : Dom) (this n : Nat) (before behind : Option Nat) : Dom :=
  ({ d with next := update d.next n behind, prev := update d.prev n before }.linkBehind this before
    (some n)).linkBefore this behind (some n)

/-- Two nodes, or the ends of their parent, become neighbours. -/
def cut (d : Dom) (this : Nat) (before behind : Option Nat) : Dom :=
  (d.linkBefore this behind before).linkBehind this before behind

theorem put_nodes (d : Dom) (this n : Nat) (before behind : Option Nat) :
    (d.put this n before behind).nodes = d.nodes := rfl

theorem cut_nodes (d : Dom) (this : Nat) (before behind : Option Nat) :
    (d.cut this before behind).nodes = d.nodes := rfl

end Dom

/-! ## The list of one node -/

/-- New pointers hold a new list of children when they leave the other lists alone. -/
theorem HoldsExcept.relist (h : HoldsExcept loose d F) (hnodes : d'.nodes = d.nodes)
    (hwell : (F.setChildren this l).WellFormed)
    (hlist : Doubly d'.next d'.prev (d'.firstChild this) (d'.lastChild this) l)
    (hother : ∀ q, q ≠ this → d'.firstChild q = d.firstChild q ∧ d'.lastChild q = d.lastChild q ∧
      ∀ c ∈ F.children q, d'.next c = d.next c ∧ d'.prev c = d.prev c)
    (hparent : ∀ c p, ¬ loose' c → d.alive c →
      (d'.parent c = some p ↔ c ∈ (F.setChildren this l).children p)) :
    HoldsExcept loose' d' (F.setChildren this l) := by
  simp only [Dom.nodes, Prod.mk.injEq] at hnodes
  obtain ⟨hfresh, halive, htype, hvalue⟩ := hnodes
  constructor
  · exact hwell
  · rw [hfresh]
    exact h.fresh
  · intro x
    rw [halive, htype, hvalue]
    exact h.node x
  · intro p hp
    rw [halive] at hp
    by_cases hpt : p = this
    · rw [hpt, Forest.setChildren_self]
      exact hlist
    · obtain ⟨hfirst, hlast, hlinks⟩ := hother p hpt
      rw [Forest.setChildren_of_ne hpt, hfirst, hlast]
      exact (h.list p hp).congr (fun c hc => (hlinks c hc).1) fun c hc => (hlinks c hc).2
  · intro c p hc hac
    rw [halive] at hac
    exact hparent c p hc hac

/-- Children of another node are not in the list of this one. -/
theorem Forest.WellFormed.ne_of_other (h : (F.setChildren this l).WellFormed) {q c a : Nat}
    (hq : q ≠ this) (hc : c ∈ F.children q) (ha : a ∈ l) : c ≠ a := by
  intro he
  subst he
  apply hq
  apply h.unique q this c
  · rwa [Forest.setChildren_of_ne hq]
  · rwa [Forest.setChildren_self]

/-- A new node takes the place of `bs`. -/
theorem HoldsExcept.put (h : HoldsExcept loose d F) (hthis : d.alive this = true)
    (hlist : F.children this = as ++ (bs ++ cs))
    (hwell : (F.setChildren this (as ++ n :: cs)).WellFormed)
    (hparent : ∀ c p, ¬ loose' c → d.alive c →
      (d.parent c = some p ↔ c ∈ (F.setChildren this (as ++ n :: cs)).children p)) :
    HoldsExcept loose' (d.put this n as.getLast? cs.head?) (F.setChildren this (as ++ n :: cs)) := by
  have hnodup := hwell.nodup this
  rw [Forest.setChildren_self] at hnodup
  have hold := h.list this hthis
  rw [hlist] at hold
  apply h.relist (Dom.put_nodes ..) hwell
  · have hnew := hold.put hnodup
    simp only [Dom.put, Dom.linkBehind, Dom.linkBefore, Function.update_self]
    exact hnew
  · intro q hq
    have hne : ∀ {c a}, c ∈ F.children q → a ∈ as ++ n :: cs → c ≠ a :=
      fun hc ha => hwell.ne_of_other hq hc ha
    simp only [Dom.put, Dom.linkBehind, Dom.linkBefore, Function.update_of_ne hq, true_and]
    intro c hc
    rw [linkNext_of_ne, linkNext_of_ne, Function.update_of_ne, Function.update_of_ne]
    · exact ⟨rfl, rfl⟩
    · exact hne hc (by simp)
    · exact hne hc (by simp)
    · exact fun a ha => hne hc (by simp [List.mem_of_mem_head? ha])
    · exact fun a ha => hne hc (by simp [List.mem_of_getLast? ha])
  · exact hparent

/-- The nodes `bs` are left out. -/
theorem HoldsExcept.cut (h : HoldsExcept loose d F) (hthis : d.alive this = true)
    (hlist : F.children this = as ++ (bs ++ cs))
    (hwell : (F.setChildren this (as ++ cs)).WellFormed)
    (hparent : ∀ c p, ¬ loose' c → d.alive c →
      (d.parent c = some p ↔ c ∈ (F.setChildren this (as ++ cs)).children p)) :
    HoldsExcept loose' (d.cut this as.getLast? cs.head?) (F.setChildren this (as ++ cs)) := by
  have hnodup := hwell.nodup this
  rw [Forest.setChildren_self] at hnodup
  have hold := h.list this hthis
  rw [hlist] at hold
  apply h.relist (Dom.cut_nodes ..) hwell
  · have hnew := hold.cut hnodup
    simp only [Dom.cut, Dom.linkBehind, Dom.linkBefore, Function.update_self]
    exact hnew
  · intro q hq
    have hne : ∀ {c a}, c ∈ F.children q → a ∈ as ++ cs → c ≠ a :=
      fun hc ha => hwell.ne_of_other hq hc ha
    simp only [Dom.cut, Dom.linkBehind, Dom.linkBefore, Function.update_of_ne hq, true_and]
    intro c hc
    rw [linkNext_of_ne, linkNext_of_ne]
    · exact ⟨rfl, rfl⟩
    · exact fun a ha => hne hc (by simp [List.mem_of_mem_head? ha])
    · exact fun a ha => hne hc (by simp [List.mem_of_getLast? ha])
  · exact hparent

end TinyXml

end CommonCc
