import CommonCc.TinyXml.Dom.Calls
import Mathlib.Data.List.Find
import Mathlib.Data.List.InsertIdx

/-!
# The pointers do what the lists do

Every call that the guard lets through answers as on the lists of children, and leaves pointers
that are those of the new lists.
-/

namespace CommonCc

namespace TinyXml

open Function (update)

variable {d : Dom} {F : Forest} {this x n : Nat} {as cs l : List Nat} {value : Bytes}

/-! ## Searches -/

/-- The loop over siblings is a search of the list that they are. -/
theorem Dom.findFrom_spec {step : Nat → Option Nat} {cur : Option Nat} {fuel : Nat}
    (hlist : Linked step cur l) (hfuel : l.length ≤ fuel) (halive : ∀ x ∈ l, d.alive x = true) :
    d.findFrom step value fuel cur =
      .ok (l.find? fun x => cstr (d.value x) = cstr value) := by
  induction l generalizing cur fuel with
  | nil =>
      rw [(linked_nil step cur).mp hlist]
      cases fuel <;> rfl
  | cons a l ih =>
      obtain ⟨rfl, hrest⟩ := hlist
      obtain ⟨k, rfl⟩ := Nat.exists_eq_add_one_of_ne_zero (Nat.ne_zero_of_lt hfuel)
      rw [findFrom, check_ok (halive a List.mem_cons_self), except_ok_bind, List.find?_cons]
      by_cases heq : cstr (d.value a) = cstr value
      · simp [heq]
      · simp only [heq, if_false, decide_false]
        apply ih hrest (Nat.le_of_succ_le_succ hfuel)
        exact fun x hx => halive x (List.mem_cons_of_mem a hx)

namespace HoldsExcept

theorem hasValue_eq (h : Holds d F) (hx : d.alive x = true) :
    F.hasValue value x = decide (cstr (d.value x) = cstr value) := by
  rw [Forest.hasValue, h.node x, if_pos hx]
  rfl

/-- A search among the children of a node. -/
theorem find_children (h : Holds d F) {step : Nat → Option Nat} {cur : Option Nat}
    (hlist : Linked step cur l) (hsub : l.Sublist (F.children this) ∨ l = (F.children this).reverse) :
    d.findFrom step value d.fresh cur = .ok (l.find? (F.hasValue value)) := by
  have hmem : ∀ x ∈ l, d.alive x = true := by
    intro x hx
    rcases hsub with hsub | rfl
    · exact h.alive_child (hsub.subset hx)
    · exact h.alive_child (List.mem_reverse.mp hx)
  have hlength : l.length ≤ d.fresh := by
    rcases hsub with hsub | rfl
    · exact Nat.le_trans hsub.length_le (h.length_children_le this)
    · rw [List.length_reverse]
      exact h.length_children_le this
  rw [Dom.findFrom_spec hlist hlength hmem]
  congr 1
  apply List.find?_congr
  intro x hx
  exact (h.hasValue_eq (hmem x hx)).symm

theorem firstChild_ok (h : Holds d F) (hthis : d.alive this = true) :
    d.FirstChild this value = .ok ((F.children this).find? (F.hasValue value)) := by
  rw [Dom.FirstChild, Dom.check_ok hthis, except_ok_bind]
  exact h.find_children (h.list this hthis).forward (.inl (List.Sublist.refl _))

theorem lastChild_ok (h : Holds d F) (hthis : d.alive this = true) :
    d.LastChild this value = .ok ((F.children this).reverse.find? (F.hasValue value)) := by
  rw [Dom.LastChild, Dom.check_ok hthis, except_ok_bind]
  exact h.find_children (h.list this hthis).backward (.inr rfl)

theorem nextSibling_ok (h : Holds d F) (hthis : d.alive this = true)
    (hlist : F.children this = as ++ x :: cs) :
    d.NextSibling x value = .ok (cs.find? (F.hasValue value)) := by
  have hx : x ∈ F.children this := by rw [hlist]; simp
  have hsub : cs.Sublist (F.children this) := by
    rw [hlist]
    exact (List.sublist_cons_self x cs).trans (List.sublist_append_right ..)
  have hall := (h.list this hthis).forward
  rw [hlist] at hall
  rw [Dom.NextSibling, Dom.check_ok (h.alive_child hx), except_ok_bind, hall.next_eq]
  exact h.find_children hall.rest.2.from_head (.inl hsub)

/-! ## Calls -/

theorem new_holds (h : Holds d F) (type : DomType) (value : Bytes) :
    Holds (d.new type value).2 (F.new type value) := by
  have hchildren := h.wellFormed.new_children type value
  have hold : ∀ x, x ≠ F.fresh → (d.new type value).2.alive x = d.alive x := by
    intro x hx
    rw [← h.fresh] at hx
    exact Function.update_of_ne hx ..
  have hne : ∀ c p, c ∈ F.children p → c ≠ F.fresh := by
    intro c p hc
    exact Nat.ne_of_lt (h.wellFormed.node_lt c (h.wellFormed.isSome p c hc).2)
  constructor
  · exact h.wellFormed.new type value
  · exact congrArg (· + 1) h.fresh
  · intro x
    by_cases hx : x = F.fresh
    · rw [hx, ← h.fresh]
      simp [Dom.new, Forest.new, h.fresh]
    · rw [hold x hx]
      rw [← h.fresh] at hx
      simp only [Dom.new, Forest.new, ← h.fresh, Function.update_of_ne hx]
      exact h.node x
  · intro p hp
    rw [hchildren]
    by_cases hpf : p = F.fresh
    · rw [hpf, h.wellFormed.children_fresh, ← h.fresh]
      simp only [Dom.new, Function.update_self]
      exact doubly_nil _ _
    · rw [hold p hpf] at hp
      have hpf' : p ≠ d.fresh := h.fresh ▸ hpf
      simp only [Dom.new, Function.update_of_ne hpf']
      apply (h.list p hp).congr
      · exact fun c hc => Function.update_of_ne (h.fresh ▸ hne c p hc) ..
      · exact fun c hc => Function.update_of_ne (h.fresh ▸ hne c p hc) ..
  · intro c p _ hc
    rw [hchildren]
    by_cases hcf : c = F.fresh
    · rw [hcf, ← h.fresh]
      simp only [Dom.new, Function.update_self]
      constructor
      · intro he
        cases he
      · intro hin
        exact absurd h.fresh (hne _ p hin)
    · rw [hold c hcf] at hc
      have hcf' : c ≠ d.fresh := h.fresh ▸ hcf
      simp only [Dom.new, Function.update_of_ne hcf']
      exact h.parent c p (by simp) hc

/-- A node beside which nothing can be put. -/
theorem parent_ne (h : Holds d F) (hx : d.alive x = true) (hnot : x ∉ F.children this) :
    d.parent x ≠ some this := fun he => hnot ((h.parent x this (by simp) hx).mp he)

end HoldsExcept

/-! ## Positions -/

theorem idxOf_split (hx : x ∉ as) : (as ++ x :: cs).idxOf x = as.length := by
  rw [List.idxOf_append_of_notMem hx, List.idxOf_cons_self, Nat.add_zero]

theorem insertIdx_split (as cs : List Nat) (n : Nat) :
    (as ++ cs).insertIdx as.length n = as ++ n :: cs := by
  induction as with
  | nil => rfl
  | cons a as ih => exact congrArg (a :: ·) ih

/-- A child that is beside the new one, or is not there. -/
theorem Forest.change_mem {f : Nat → List Nat → List Nat} (hx : x ∈ F.children this) :
    F.change this (some x) n f =
      (.node (some n), F.setChildren this (f x (F.children this))) := if_pos hx

theorem Forest.change_not_mem {f : Nat → List Nat → List Nat} (hx : x ∉ F.children this) :
    F.change this (some x) n f = (.node none, F) := if_neg hx

namespace HoldsExcept

theorem insertBeforeChild_spec (h : Holds d F) {beside : Option Nat}
    (hguard : ∀ x ∈ beside, (F.node x).isSome ∧ (x ∈ F.children this → F.Fits this n)) :
    ∃ d', d.call (.insertBeforeChild this beside n) =
        .ok ((F.call (.insertBeforeChild this beside n)).1, d') ∧
      Holds d' (F.call (.insertBeforeChild this beside n)).2 := by
  cases beside with
  | none => exact ⟨d, rfl, h⟩
  | some x =>
      obtain ⟨hsome, hfits⟩ := hguard x rfl
      have halive := h.alive_of_isSome hsome
      simp only [Forest.call, Dom.call]
      by_cases hx : x ∈ F.children this
      · obtain ⟨as, cs, hlist, hnot⟩ := List.eq_append_cons_of_mem hx
        have hput := h.put_fits (hfits hx) hlist
        rw [Forest.change_mem hx, h.insertBeforeChild_ok (hfits hx) hlist, except_ok_bind, hlist,
          idxOf_split hnot, insertIdx_split]
        exact ⟨_, rfl, hput⟩
      · rw [Forest.change_not_mem hx, Dom.InsertBeforeChild]
        simp only [Dom.check_ok halive, except_ok_bind, if_pos (h.parent_ne halive hx)]
        exact ⟨d, rfl, h⟩

theorem insertAfterChild_spec (h : Holds d F) {beside : Option Nat}
    (hguard : ∀ x ∈ beside, (F.node x).isSome ∧ (x ∈ F.children this → F.Fits this n)) :
    ∃ d', d.call (.insertAfterChild this beside n) =
        .ok ((F.call (.insertAfterChild this beside n)).1, d') ∧
      Holds d' (F.call (.insertAfterChild this beside n)).2 := by
  cases beside with
  | none => exact ⟨d, rfl, h⟩
  | some x =>
      obtain ⟨hsome, hfits⟩ := hguard x rfl
      have halive := h.alive_of_isSome hsome
      simp only [Forest.call, Dom.call]
      by_cases hx : x ∈ F.children this
      · obtain ⟨as, cs, hlist, hnot⟩ := List.eq_append_cons_of_mem hx
        have hlist' : F.children this = (as ++ [x]) ++ cs := by
          rw [hlist, List.append_assoc, List.singleton_append]
        have hput := h.put_fits (hfits hx) hlist'
        rw [List.getLast?_concat] at hput
        have hindex : (F.children this).idxOf x + 1 = (as ++ [x]).length := by
          rw [hlist, idxOf_split hnot, List.length_append, List.length_singleton]
        rw [Forest.change_mem hx, h.insertAfterChild_ok (hfits hx) hlist, except_ok_bind, hindex,
          hlist', insertIdx_split]
        exact ⟨_, rfl, hput⟩
      · rw [Forest.change_not_mem hx, Dom.InsertAfterChild]
        simp only [Dom.check_ok halive, except_ok_bind, if_pos (h.parent_ne halive hx)]
        exact ⟨d, rfl, h⟩

theorem replaceChild_call (h : Holds d F) {beside : Option Nat}
    (hguard : ∀ x ∈ beside, (F.node x).isSome ∧ (x ∈ F.children this → F.Fits this n)) :
    ∃ d', d.call (.replaceChild this beside n) =
        .ok ((F.call (.replaceChild this beside n)).1, d') ∧
      Holds d' (F.call (.replaceChild this beside n)).2 := by
  cases beside with
  | none => exact ⟨d, rfl, h⟩
  | some x =>
      obtain ⟨hsome, hfits⟩ := hguard x rfl
      have halive := h.alive_of_isSome hsome
      simp only [Forest.call, Dom.call]
      by_cases hx : x ∈ F.children this
      · obtain ⟨as, cs, hlist, hnot⟩ := List.eq_append_cons_of_mem hx
        obtain ⟨d', hcall, hholds⟩ := h.replaceChild_spec (hfits hx) hlist
        have hset : (F.children this).set ((F.children this).idxOf x) n = as ++ n :: cs := by
          rw [hlist, idxOf_split hnot, List.set_append_right _ _ (Nat.le_refl _), Nat.sub_self]
          rfl
        rw [Forest.change_mem hx, if_pos hx, hcall, except_ok_bind, hset]
        exact ⟨d', rfl, hholds⟩
      · rw [Forest.change_not_mem hx, if_neg hx, Dom.ReplaceChild]
        simp only [Dom.check_ok halive, except_ok_bind, if_pos (h.parent_ne halive hx)]
        exact ⟨d, rfl, h⟩

theorem iterateChildren_call (h : Holds d F) {previous : Option Nat}
    (hthis : (F.node this).isSome) (hguard : ∀ x ∈ previous, x ∈ F.children this) :
    ∃ d', d.call (.iterateChildren this value previous) =
        .ok ((F.call (.iterateChildren this value previous)).1, d') ∧
      Holds d' (F.call (.iterateChildren this value previous)).2 := by
  have halive := h.alive_of_isSome hthis
  cases previous with
  | none =>
      simp only [Dom.call, Dom.IterateChildren, h.firstChild_ok halive, except_ok_bind]
      exact ⟨d, rfl, h⟩
  | some x =>
      have hx := hguard x rfl
      obtain ⟨as, cs, hlist, hnot⟩ := List.eq_append_cons_of_mem hx
      have hdrop : (F.children this).drop ((F.children this).idxOf x + 1) = cs := by
        rw [hlist, idxOf_split hnot, ← List.singleton_append, ← List.append_assoc]
        apply List.drop_left'
        simp
      simp only [Dom.call, Dom.IterateChildren, Dom.check_ok (h.alive_child hx), except_ok_bind,
        h.parent_child hx, decide_true, Dom.assert_true, h.nextSibling_ok halive hlist]
      refine ⟨d, ?_, h⟩
      simp only [Forest.call, hdrop]

/-- A call that the guard lets through does on the pointers what it does on the lists. -/
theorem call_spec (h : Holds d F) (c : DomCall) (hguard : F.guard c) :
    ∃ d', d.call c = .ok ((F.call c).1, d') ∧ Holds d' (F.call c).2 := by
  cases c with
  | new type value =>
      refine ⟨_, ?_, h.new_holds type value⟩
      simp only [Dom.call, Forest.call, Dom.new, h.fresh]
  | linkEndChild this node =>
      have hlist : F.children this = F.children this ++ [] := (List.append_nil _).symm
      have hput := h.put_fits hguard hlist
      refine ⟨_, ?_, hput⟩
      simp only [Dom.call, h.linkEndChild_ok hguard, except_ok_bind]
      rfl
  | insertBeforeChild this beforeThis node => exact h.insertBeforeChild_spec hguard
  | insertAfterChild this afterThis node => exact h.insertAfterChild_spec hguard
  | replaceChild this replaceThis node => exact h.replaceChild_call hguard
  | removeChild this removeThis =>
      cases removeThis with
      | none => exact ⟨d, rfl, h⟩
      | some x =>
          obtain ⟨d', hcall, hholds⟩ := h.removeChild_spec (hguard x rfl)
          refine ⟨d', ?_, hholds⟩
          simp only [Dom.call, hcall, except_ok_bind]
          rfl
  | clear this =>
      obtain ⟨d', hcall, hholds⟩ := h.clear_spec (h.alive_of_isSome hguard)
      refine ⟨d', ?_, hholds⟩
      simp only [Dom.call, hcall, except_ok_bind]
      rfl
  | iterateChildren this value previous => exact h.iterateChildren_call hguard.1 hguard.2
  | lastChild this value =>
      refine ⟨d, ?_, h⟩
      simp only [Dom.call, h.lastChild_ok (h.alive_of_isSome hguard), except_ok_bind]
      rfl

end HoldsExcept

theorem holds_empty : Holds .empty .empty where
  wellFormed := Forest.wellFormed_empty
  fresh := rfl
  node _ := rfl
  list _ h := nomatch h
  parent _ _ _ h := nomatch h

/-- A leaf without a parent can become a child of any other node. -/
theorem Forest.fits_leaf {t : DomType × Bytes} (hthis : (F.node this).isSome)
    (hn : F.node n = some t) (htype : t.1 ≠ .document) (hroot : F.Root n)
    (hleaf : F.children n = []) (hne : this ≠ n) : F.Fits this n where
  isSome := hthis
  notDocument := ⟨t, hn, htype⟩
  root := hroot
  notBelow hbelow := by
    rcases hbelow.cases_child with heq | ⟨c, hc, _⟩
    · exact hne heq
    · rw [hleaf] at hc
      cases hc

end TinyXml

end CommonCc
