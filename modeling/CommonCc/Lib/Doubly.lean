import CommonCc.Lib.Linked

/-!
# Lists with both ends

Nodes linked in both directions between a first and a last one, where both chains end in a null
link.
-/

namespace CommonCc

universe u

section Linked

variable {ι : Type u} [DecidableEq ι] {next : ι → Option ι} {head : Option ι} {as bs cs : List ι}

/-- A new node takes the place of `bs`. -/
theorem Linked.put {n : ι} (h : Linked next head (as ++ (bs ++ cs)))
    (hnodup : (as ++ n :: cs).Nodup) :
    Linked (linkNext (Function.update next n cs.head?) as.getLast? (some n))
      (linkHead head as.getLast? (some n)) (as ++ n :: cs) := by
  obtain ⟨_, hncs, hdisj⟩ := List.nodup_append.mp hnodup
  have hnas : n ∉ as := fun hn => hdisj n hn n List.mem_cons_self rfl
  have hn : Linked (Function.update next n cs.head?) (some n) (n :: cs) := by
    constructor
    · rfl
    · rw [Function.update_self]
      apply h.rest.rest.congr
      intro a ha
      apply Function.update_of_ne
      intro he
      exact (List.nodup_cons.mp hncs).1 (he ▸ ha)
  rcases as.eq_nil_or_concat with rfl | ⟨as, p, rfl⟩
  · exact hn
  · -- only the link of `p` goes elsewhere in front of the new node
    simp only [List.concat_eq_append, List.append_assoc, List.singleton_append] at h hnodup hnas ⊢
    simp only [List.getLast?_append, List.getLast?_singleton, Option.some_or, linkNext, linkHead]
    obtain ⟨_, hpcs, hdisj'⟩ := List.nodup_append.mp hnodup
    have hpn : p ≠ n := fun he => hnas (by simp [he])
    apply h.turn
    · intro a ha
      rw [Function.update_of_ne, Function.update_of_ne]
      · intro he
        exact hnas (by simp [← he, ha])
      · intro he
        exact hdisj' a ha p List.mem_cons_self he
    · rw [Function.update_self]
      apply hn.congr
      intro a ha
      apply Function.update_of_ne
      intro he
      exact (List.nodup_cons.mp hpcs).1 (he ▸ ha)

/-- The nodes `bs` are left out. -/
theorem Linked.cut (h : Linked next head (as ++ (bs ++ cs))) (hnodup : (as ++ cs).Nodup) :
    Linked (linkNext next as.getLast? cs.head?) (linkHead head as.getLast? cs.head?) (as ++ cs) :=
  h.relink h.rest.rest hnodup

end Linked

/-! ## Both directions -/

section Doubly

variable {ι : Type u} {next prev : ι → Option ι} {first last : Option ι} {as bs cs l : List ι}

structure Doubly (next prev : ι → Option ι) (first last : Option ι) (l : List ι) : Prop where
  forward : Linked next first l
  backward : Linked prev last l.reverse

theorem doubly_nil (next prev : ι → Option ι) : Doubly next prev none none [] := ⟨rfl, rfl⟩

theorem Doubly.first_eq (h : Doubly next prev first last l) : first = l.head? := h.forward.head

theorem Doubly.last_eq (h : Doubly next prev first last l) : last = l.getLast? := by
  rw [h.backward.head, List.head?_reverse]

theorem Doubly.next_eq {x : ι} (h : Doubly next prev first last (as ++ x :: cs)) :
    next x = cs.head? := h.forward.next_eq

theorem Doubly.prev_eq {x : ι} (h : Doubly next prev first last (as ++ x :: cs)) :
    prev x = as.getLast? := by
  have hback := h.backward
  rw [List.reverse_append, List.reverse_cons, List.append_assoc, List.singleton_append] at hback
  rw [hback.next_eq, List.head?_reverse]

theorem Doubly.congr {next' prev' : ι → Option ι} (h : Doubly next prev first last l)
    (hnext : ∀ a ∈ l, next' a = next a) (hprev : ∀ a ∈ l, prev' a = prev a) :
    Doubly next' prev' first last l :=
  ⟨h.forward.congr hnext, h.backward.congr fun a ha => hprev a (List.mem_reverse.mp ha)⟩

variable [DecidableEq ι]

theorem Doubly.put {n : ι} (h : Doubly next prev first last (as ++ (bs ++ cs)))
    (hnodup : (as ++ n :: cs).Nodup) :
    Doubly (linkNext (Function.update next n cs.head?) as.getLast? (some n))
      (linkNext (Function.update prev n as.getLast?) cs.head? (some n))
      (linkHead first as.getLast? (some n)) (linkHead last cs.head? (some n)) (as ++ n :: cs) := by
  constructor
  · exact h.forward.put hnodup
  · have hback : Linked prev last (cs.reverse ++ (bs.reverse ++ as.reverse)) := by
      simpa using h.backward
    have hnodup' : (cs.reverse ++ n :: as.reverse).Nodup := by
      simpa using List.nodup_reverse.mpr hnodup
    simpa using hback.put hnodup'

theorem Doubly.cut (h : Doubly next prev first last (as ++ (bs ++ cs)))
    (hnodup : (as ++ cs).Nodup) :
    Doubly (linkNext next as.getLast? cs.head?) (linkNext prev cs.head? as.getLast?)
      (linkHead first as.getLast? cs.head?) (linkHead last cs.head? as.getLast?) (as ++ cs) := by
  constructor
  · exact h.forward.cut hnodup
  · have hback : Linked prev last (cs.reverse ++ (bs.reverse ++ as.reverse)) := by
      simpa using h.backward
    have hnodup' : (cs.reverse ++ as.reverse).Nodup := by
      simpa using List.nodup_reverse.mpr hnodup
    simpa using hback.cut hnodup'

end Doubly

end CommonCc
