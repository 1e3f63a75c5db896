import Mathlib.Data.List.Nodup
import Mathlib.Logic.Function.Basic

/-!
# Rings through a sentinel

Nodes linked in both directions, where both chains begin and end at one node that is no member.
-/

namespace CommonCc

universe u

open Function (update)

variable {ι : Type u} {f g : ι → Option ι} {p : Option ι} {a b x : ι} {as cs l : List ι}

/-- From `p` on, the links visit exactly the nodes `l`, then come to `b`. -/
def Leads (f : ι → Option ι) : Option ι → List ι → ι → Prop
  | p, [], b => p = some b
  | p, a :: l, b => p = some a ∧ Leads f (f a) l b

/-- Only the links of the visited nodes matter. -/
theorem Leads.congr (h : Leads f p l b) (heq : ∀ a ∈ l, g a = f a) : Leads g p l b := by
  induction l generalizing p with
  | nil => exact h
  | cons a l ih =>
      constructor
      · exact h.1
      · rw [heq a List.mem_cons_self]
        exact ih h.2 fun c hc => heq c (List.mem_cons_of_mem a hc)

theorem Leads.start (h : Leads f p l b) : p = some (l.head?.getD b) := by
  cases l with
  | nil => exact h
  | cons a l => exact h.1

theorem Leads.split (h : Leads f p (as ++ x :: cs) b) : Leads f p as x ∧ Leads f (f x) cs b := by
  induction as generalizing p with
  | nil => exact h
  | cons a as ih => exact ⟨⟨h.1, (ih h.2).1⟩, (ih h.2).2⟩

variable [DecidableEq ι]

/-- The last link of a chain that begins at `a` is turned to another chain. -/
theorem Leads.graft {q : Option ι} {c : ι} (h : Leads f (f a) as c) (hq : Leads f q cs b)
    (hnodup : (a :: (as ++ cs)).Nodup) :
    Leads (update f (as.getLast?.getD a) q) (update f (as.getLast?.getD a) q a) (as ++ cs) b := by
  induction as generalizing a with
  | nil =>
      rw [List.getLast?_nil, Option.getD_none, Function.update_self, List.nil_append]
      apply hq.congr
      intro y hy
      apply Function.update_of_ne
      intro he
      exact (List.nodup_cons.mp hnodup).1 (he ▸ hy)
  | cons y as ih =>
      obtain ⟨hay, hrest⟩ := h
      obtain ⟨ha, hnodup'⟩ := List.nodup_cons.mp hnodup
      have hlast : (y :: as).getLast?.getD a = as.getLast?.getD y := by
        rw [List.getLast?_cons, Option.getD_some]
      have hmem : as.getLast?.getD y ∈ y :: as := by
        rw [← hlast]
        exact List.mem_of_getLast? (by rw [List.getLast?_cons, Option.getD_some])
      have hne : a ≠ as.getLast?.getD y := by
        intro he
        apply ha
        rw [he]
        exact List.mem_append_left cs hmem
      rw [hlast, Function.update_of_ne hne]
      exact ⟨hay, ih hrest hnodup'⟩

/-- The ring of `l` through the sentinel `a`. -/
structure Ringed (next prev : ι → Option ι) (a : ι) (l : List ι) : Prop where
  nodup : (a :: l).Nodup
  forward : Leads next (next a) l a
  backward : Leads prev (prev a) l.reverse a

namespace Ringed

variable {next prev : ι → Option ι}

omit [DecidableEq ι] in
theorem last_eq (h : Ringed next prev a l) : prev a = some (l.getLast?.getD a) := by
  rw [h.backward.start, List.head?_reverse]

omit [DecidableEq ι] in
theorem next_eq (h : Ringed next prev a (as ++ x :: cs)) : next x = some (cs.head?.getD a) :=
  h.forward.split.2.start

omit [DecidableEq ι] in
theorem backward_split (h : Ringed next prev a (as ++ x :: cs)) :
    Leads prev (prev a) cs.reverse x ∧ Leads prev (prev x) as.reverse a := by
  have hback := h.backward
  rw [List.reverse_append, List.reverse_cons, List.append_assoc, List.singleton_append] at hback
  exact hback.split

omit [DecidableEq ι] in
theorem prev_eq (h : Ringed next prev a (as ++ x :: cs)) : prev x = some (as.getLast?.getD a) := by
  rw [h.backward_split.2.start, List.head?_reverse]

omit [DecidableEq ι] in
/-- Only the links of the ring matter. -/
theorem congr {next' prev' : ι → Option ι} (h : Ringed next prev a l)
    (hnext : ∀ x ∈ a :: l, next' x = next x) (hprev : ∀ x ∈ a :: l, prev' x = prev x) :
    Ringed next' prev' a l := by
  constructor
  · exact h.nodup
  · rw [hnext a List.mem_cons_self]
    exact h.forward.congr fun x hx => hnext x (List.mem_cons_of_mem a hx)
  · rw [hprev a List.mem_cons_self]
    exact h.backward.congr fun x hx =>
      hprev x (List.mem_cons_of_mem a (List.mem_reverse.mp hx))

/-- A new node in front of the sentinel. -/
theorem add (h : Ringed next prev a l) (hx : x ∉ a :: l) :
    Ringed (update (update next x (some a)) (l.getLast?.getD a) (some x))
      (update (update prev x (prev a)) a (some x)) a (l ++ [x]) := by
  have hxa : a ≠ x := fun he => hx (he ▸ List.mem_cons_self)
  have hne : ∀ y ∈ l, y ≠ x := fun y hy he => hx (he ▸ List.mem_cons_of_mem a hy)
  have hnodup : (a :: (l ++ [x])).Nodup := by
    rw [← List.cons_append]
    apply List.nodup_append.mpr
    refine ⟨h.nodup, List.nodup_singleton x, ?_⟩
    intro y hy z hz he
    rw [List.mem_singleton.mp hz] at he
    exact hx (he ▸ hy)
  constructor
  · exact hnodup
  · have hold : Leads (update next x (some a)) (update next x (some a) a) l a := by
      rw [Function.update_of_ne hxa]
      exact h.forward.congr fun y hy => Function.update_of_ne (hne y hy) ..
    have hnew : Leads (update next x (some a)) (some x) [x] a :=
      ⟨rfl, Function.update_self ..⟩
    exact hold.graft hnew hnodup
  · rw [List.reverse_append, List.reverse_singleton, List.singleton_append]
    constructor
    · exact Function.update_self ..
    · rw [Function.update_of_ne hxa.symm, Function.update_self]
      apply h.backward.congr
      intro y hy
      have hy' := List.mem_reverse.mp hy
      have hya : y ≠ a := fun he => (List.nodup_cons.mp h.nodup).1 (he ▸ hy')
      rw [Function.update_of_ne hya, Function.update_of_ne (hne y hy')]

/-- The neighbours of a node become neighbours. -/
theorem remove (h : Ringed next prev a (as ++ x :: cs)) :
    Ringed (update next (as.getLast?.getD a) (next x)) (update prev (cs.head?.getD a) (prev x))
      a (as ++ cs) := by
  have hsub : (a :: (as ++ cs)).Sublist (a :: (as ++ x :: cs)) := by
    apply List.Sublist.cons_cons
    exact List.Sublist.append_left (List.sublist_cons_self x cs) as
  have hnodup := h.nodup.sublist hsub
  obtain ⟨hfront, hrest⟩ := h.forward.split
  obtain ⟨hback, hbefore⟩ := h.backward_split
  constructor
  · exact hnodup
  · exact hfront.graft hrest hnodup
  · have hrev : (a :: (cs.reverse ++ as.reverse)).Nodup := by
      obtain ⟨ha, hl⟩ := List.nodup_cons.mp hnodup
      rw [← List.reverse_append]
      exact List.nodup_cons.mpr ⟨fun hin => ha (List.mem_reverse.mp hin), List.nodup_reverse.mpr hl⟩
    have hgraft := hback.graft hbefore hrev
    rw [List.getLast?_reverse, ← List.reverse_append] at hgraft
    exact hgraft

end Ringed

end CommonCc
