import CommonCc.TinyXml.Dom.Children

/-!
# Runs of calls

The calls on nodes that are alive, on the pointers and on the lists of children.  Pointers to
nodes that were deleted are the caller's fault.
-/

namespace CommonCc

namespace TinyXml

open Function (update)

inductive DomCall where
  | new (type : DomType) (value : Bytes)
  | linkEndChild (this node : Nat)
  | insertBeforeChild (this : Nat) (beforeThis : Option Nat) (node : Nat)
  | insertAfterChild (this : Nat) (afterThis : Option Nat) (node : Nat)
  | replaceChild (this : Nat) (replaceThis : Option Nat) (node : Nat)
  | removeChild (this : Nat) (removeThis : Option Nat)
  | clear (this : Nat)
  | iterateChildren (this : Nat) (value : Bytes) (previous : Option Nat)
  | lastChild (this : Nat) (value : Bytes)

inductive DomAnswer where
  | node (x : Option Nat)
  | flag (b : Bool)
  | done
deriving DecidableEq

def Dom.call (d : Dom) : DomCall → Except Fault (DomAnswer × Dom)
  | .new type value => .ok (.node (some (d.new type value).1), (d.new type value).2)
  | .linkEndChild this node => do
      let (x, d) ← d.LinkEndChild this node
      .ok (.node x, d)
  | .insertBeforeChild this beforeThis node => do
      let (x, d) ← d.InsertBeforeChild this beforeThis node
      .ok (.node x, d)
  | .insertAfterChild this afterThis node => do
      let (x, d) ← d.InsertAfterChild this afterThis node
      .ok (.node x, d)
  | .replaceChild this replaceThis node => do
      let (x, d) ← d.ReplaceChild this replaceThis node
      .ok (.node x, d)
  | .removeChild this removeThis => do
      let (b, d) ← d.RemoveChild this removeThis
      .ok (.flag b, d)
  | .clear this => do
      let d ← d.Clear this
      .ok (.done, d)
  | .iterateChildren this value previous => do
      let x ← d.IterateChildren this value previous
      .ok (.node x, d)
  | .lastChild this value => do
      let x ← d.LastChild this value
      .ok (.node x, d)

namespace Forest

/-- The children change by `f`, where the node beside which they do is one of them. -/
def change (F : Forest) (this : Nat) (beside : Option Nat) (node : Nat)
    (f : Nat → List Nat → List Nat) : DomAnswer × Forest :=
  match beside with
  | none => (.node none, F)
  | some x =>
      if x ∈ F.children this then (.node (some node), F.setChildren this (f x (F.children this)))
      else (.node none, F)

def hasValue (F : Forest) (value : Bytes) (x : Nat) : Bool :=
  (F.node x).any fun n => cstr n.2 = cstr value

/-- What a call does to the lists of children. -/
noncomputable def call (F : Forest) : DomCall → DomAnswer × Forest
  | .new type value => (.node (some F.fresh), F.new type value)
  | .linkEndChild this node => (.node (some node), F.setChildren this (F.children this ++ [node]))
  | .insertBeforeChild this beforeThis node =>
      F.change this beforeThis node fun x l => l.insertIdx (l.idxOf x) node
  | .insertAfterChild this afterThis node =>
      F.change this afterThis node fun x l => l.insertIdx (l.idxOf x + 1) node
  | .replaceChild this replaceThis node =>
      let r := F.change this replaceThis node fun x l => l.set (l.idxOf x) node
      match replaceThis with
      | none => r
      | some x => if x ∈ F.children this then (r.1, r.2.free [x]) else r
  | .removeChild this removeThis =>
      match removeThis with
      | none => (.flag false, F)
      | some x => (.flag true, (F.setChildren this ((F.children this).erase x)).free [x])
  | .clear this => (.done, (F.setChildren this []).free (F.children this))
  | .iterateChildren this value previous =>
      match previous with
      | none => (.node ((F.children this).find? (F.hasValue value)), F)
      | some x =>
          (.node (((F.children this).drop ((F.children this).idxOf x + 1)).find?
            (F.hasValue value)), F)
  | .lastChild this value => (.node ((F.children this).reverse.find? (F.hasValue value)), F)

/-- A node that can become a child of another one. -/
structure Fits (F : Forest) (this node : Nat) : Prop where
  isSome : (F.node this).isSome
  notDocument : ∃ n, F.node node = some n ∧ n.1 ≠ .document
  root : F.Root node
  notBelow : ¬ F.Below node this

/-- The pointers of a call are those of nodes that are alive, and a node that is passed to be a
child is one without a parent. -/
def guard (F : Forest) : DomCall → Prop
  | .new _ _ => True
  | .linkEndChild this node => F.Fits this node
  | .insertBeforeChild this beside node | .insertAfterChild this beside node
  | .replaceChild this beside node =>
      ∀ x ∈ beside, (F.node x).isSome ∧ (x ∈ F.children this → F.Fits this node)
  | .removeChild this removeThis => ∀ x ∈ removeThis, x ∈ F.children this
  | .clear this => (F.node this).isSome
  | .iterateChildren this _ previous => (F.node this).isSome ∧ ∀ x ∈ previous, x ∈ F.children this
  | .lastChild this _ => (F.node this).isSome

end Forest

variable {d : Dom} {F : Forest} {this x n : Nat} {as cs : List Nat}

/-! ## New children -/

theorem Dom.assert_true {b : Bool} (h : b = true) : Dom.assert b = .ok () := by
  rw [Dom.assert, if_pos h]

namespace HoldsExcept

theorem alive_of_isSome (h : Holds d F) (hx : (F.node x).isSome) : d.alive x = true :=
  h.alive_iff.mpr hx

theorem type_of_fits (h : Holds d F) (hfit : F.Fits this n) :
    d.alive n = true ∧ d.type n ≠ .document := by
  obtain ⟨t, ht, hdoc⟩ := hfit.notDocument
  have halive : d.alive n = true := h.alive_iff.mpr (by rw [ht]; rfl)
  have hnode := h.node n
  rw [ht, if_pos halive] at hnode
  cases hnode
  exact ⟨halive, hdoc⟩

theorem parent_root (h : Holds d F) (hn : d.alive n = true) (hroot : F.Root n) :
    d.parent n = none := by
  cases hp : d.parent n with
  | none => rfl
  | some p => exact absurd ((h.parent n p (by simp) hn).mp hp) (hroot p)

theorem parent_child (h : Holds d F) (hx : x ∈ F.children this) : d.parent x = some this :=
  (h.parent x this (by simp) (h.alive_child hx)).mpr hx

/-- Where the new node has become a child. -/
theorem parent_put (h : Holds d F) (hlist : F.children this = as ++ cs) (hroot : F.Root n)
    (c p : Nat) (hc : d.alive c = true) : update d.parent n (some this) c = some p ↔
      c ∈ (F.setChildren this (as ++ n :: cs)).children p := by
  by_cases hcn : c = n
  · subst hcn
    rw [Function.update_self]
    by_cases hp : p = this
    · rw [hp, Forest.setChildren_self]
      simp
    · rw [Forest.setChildren_of_ne hp]
      constructor
      · intro he
        exact absurd (Option.some.inj he).symm hp
      · exact fun hin => absurd hin (hroot p)
  · rw [Function.update_of_ne hcn, h.parent c p (by simp) hc]
    by_cases hp : p = this
    · rw [hp, Forest.setChildren_self, hlist]
      simp [hcn]
    · rw [Forest.setChildren_of_ne hp]

/-- The parent of a loose node may be any. -/
theorem setParent {loose : Nat → Prop} (h : HoldsExcept loose d F) (n : Nat) (p : Option Nat) :
    HoldsExcept (fun x => loose x ∨ x = n) { d with parent := update d.parent n p } F := by
  constructor
  · exact h.wellFormed
  · exact h.fresh
  · exact h.node
  · exact h.list
  · intro c q hc hac
    rw [not_or] at hc
    change update d.parent n p c = some q ↔ _
    rw [Function.update_of_ne hc.2]
    exact h.parent c q hc.1 hac

/-- The memory with a new child holds the forest with it. -/
theorem put_fits (h : Holds d F) (hfit : F.Fits this n) (hlist : F.children this = as ++ cs) :
    Holds ({ d with parent := update d.parent n (some this) }.put this n as.getLast? cs.head?)
      (F.setChildren this (as ++ n :: cs)) := by
  have hthis := h.alive_of_isSome hfit.isSome
  have hn := (h.type_of_fits hfit).1
  have hwell := h.wellFormed.put hlist hfit.isSome (h.alive_iff.mp hn) hfit.root hfit.notBelow
  have hlist' : F.children this = as ++ ([] ++ cs) := hlist
  exact (h.setParent n (some this)).put hthis hlist' hwell fun c p _ hc =>
    h.parent_put hlist hfit.root c p hc

theorem linkEndChild_ok (h : Holds d F) (hfit : F.Fits this n) :
    d.LinkEndChild this n = .ok (some n,
      { d with parent := update d.parent n (some this) }.put this n
        (F.children this).getLast? none) := by
  have hthis := h.alive_of_isSome hfit.isSome
  obtain ⟨hn, htype⟩ := h.type_of_fits hfit
  have hparent := h.parent_root hn hfit.root
  have hdocument : d.GetDocument d.fresh (some n) = .ok none := by
    obtain ⟨k, hk⟩ := Nat.exists_eq_add_one_of_ne_zero (Nat.ne_zero_of_lt (h.lt_fresh hn))
    rw [hk, Dom.GetDocument, Dom.check_ok hn, except_ok_bind, if_neg htype, hparent]
    cases k <;> rfl
  have hlast : d.lastChild this = (F.children this).getLast? := (h.list this hthis).last_eq
  have hbefore : ∀ x ∈ (F.children this).getLast?, d.alive x = true :=
    fun x hx => h.alive_child (List.mem_of_getLast? hx)
  unfold Dom.LinkEndChild
  rw [Dom.check_ok hthis, except_ok_bind, Dom.check_ok hn, except_ok_bind,
    Dom.assert_true (by simp [hparent]), except_ok_bind, hdocument, except_ok_bind]
  rw [← hlast] at hbefore ⊢
  cases hl : d.lastChild this with
  | none =>
      simp [htype, hn, hthis, except_ok_bind, Dom.put, Dom.linkBehind, Dom.linkBefore, linkNext,
        linkHead]
  | some last =>
      simp [htype, hn, hthis, hbefore last hl, except_ok_bind, Dom.put, Dom.linkBehind,
        Dom.linkBefore, linkNext, linkHead]

theorem insertBeforeChild_ok (h : Holds d F) (hfit : F.Fits this n)
    (hlist : F.children this = as ++ x :: cs) :
    d.InsertBeforeChild this (some x) n = .ok (some n,
      { d with parent := update d.parent n (some this) }.put this n as.getLast? (some x)) := by
  have hthis := h.alive_of_isSome hfit.isSome
  obtain ⟨hn, htype⟩ := h.type_of_fits hfit
  have hmem : ∀ a ∈ as ++ x :: cs, a ∈ F.children this := fun a ha => hlist ▸ ha
  have hx : d.alive x = true := h.alive_child (hmem x (by simp))
  have hparent : d.parent x = some this := h.parent_child (hmem x (by simp))
  have hbefore : ∀ y ∈ as.getLast?, d.alive y = true :=
    fun y hy => h.alive_child (hmem y (by simp [List.mem_of_getLast? hy]))
  have hall := h.list this hthis
  rw [hlist] at hall
  have hprev : d.prev x = as.getLast? := hall.prev_eq
  rw [← hprev] at hbefore ⊢
  unfold Dom.InsertBeforeChild
  cases hl : d.prev x with
  | none =>
      have hfirst : d.firstChild this = some x := by
        rw [hprev, List.getLast?_eq_none_iff] at hl
        rw [hall.first_eq, hl]
        rfl
      simp [htype, hparent, Dom.check_ok, hn, hthis, hx, hl, hfirst, Dom.assert,
        except_ok_bind, Dom.put, Dom.linkBehind, Dom.linkBefore, linkNext, linkHead]
  | some prev =>
      simp [htype, hparent, Dom.check_ok, hn, hx, hl, hbefore prev hl, except_ok_bind,
        Dom.put, Dom.linkBehind, Dom.linkBefore, linkNext, linkHead]

theorem insertAfterChild_ok (h : Holds d F) (hfit : F.Fits this n)
    (hlist : F.children this = as ++ x :: cs) :
    d.InsertAfterChild this (some x) n = .ok (some n,
      { d with parent := update d.parent n (some this) }.put this n (some x) cs.head?) := by
  have hthis := h.alive_of_isSome hfit.isSome
  obtain ⟨hn, htype⟩ := h.type_of_fits hfit
  have hmem : ∀ a ∈ as ++ x :: cs, a ∈ F.children this := fun a ha => hlist ▸ ha
  have hx : d.alive x = true := h.alive_child (hmem x (by simp))
  have hparent : d.parent x = some this := h.parent_child (hmem x (by simp))
  have hbehind : ∀ y ∈ cs.head?, d.alive y = true :=
    fun y hy => h.alive_child (hmem y (by simp [List.mem_of_mem_head? hy]))
  have hall := h.list this hthis
  rw [hlist] at hall
  have hnext : d.next x = cs.head? := hall.next_eq
  rw [← hnext] at hbehind ⊢
  unfold Dom.InsertAfterChild
  cases hl : d.next x with
  | none =>
      have hlast : d.lastChild this = some x := by
        rw [hnext, List.head?_eq_none_iff] at hl
        rw [hall.last_eq, hl, List.getLast?_concat]
      simp [htype, hparent, Dom.check_ok, hn, hthis, hx, hl, hlast, Dom.assert, except_ok_bind,
        Dom.put, Dom.linkBehind, Dom.linkBefore, linkNext, linkHead]
  | some next =>
      simp [htype, hparent, Dom.check_ok, hn, hx, hl, hbehind next hl, except_ok_bind, Dom.put,
        Dom.linkBehind, Dom.linkBefore, linkNext, linkHead]

/-! ## Children that go -/

/-- The neighbours of a child, or the ends of its parent, get the new ones. -/
theorem relink_ok {loose : Nat → Prop} (h : HoldsExcept loose d F) (hlist : F.children this = as ++ x :: cs)
    (before behind : Option Nat) :
    d.relink this x before behind =
      .ok ((d.linkBefore this cs.head? before).linkBehind this as.getLast? behind) := by
  have hmem : ∀ a ∈ as ++ x :: cs, a ∈ F.children this := fun a ha => hlist ▸ ha
  have hthis : d.alive this = true :=
    h.alive_iff.mpr (h.wellFormed.isSome this x (hmem x (by simp))).1
  have hbefore : ∀ y ∈ as.getLast?, d.alive y = true :=
    fun y hy => h.alive_child (hmem y (by simp [List.mem_of_getLast? hy]))
  have hbehind : ∀ y ∈ cs.head?, d.alive y = true :=
    fun y hy => h.alive_child (hmem y (by simp [List.mem_of_mem_head? hy]))
  have hall := h.list this hthis
  rw [hlist] at hall
  have hprev : d.prev x = as.getLast? := hall.prev_eq
  have hnext : d.next x = cs.head? := hall.next_eq
  have hnodup := h.wellFormed.nodup this
  rw [hlist] at hnodup
  have hne : ∀ y ∈ cs.head?, x ≠ y := by
    intro y hy he
    have hin := List.mem_of_mem_head? hy
    rw [← he] at hin
    have hrest := (List.nodup_append.mp hnodup).2.1
    exact (List.nodup_cons.mp hrest).1 hin
  unfold Dom.relink
  rw [← hprev] at hbefore ⊢
  rw [← hnext] at hbehind hne ⊢
  cases hl : d.next x with
  | none =>
      cases hp : d.prev x with
      | none => simp [hthis, hp, except_ok_bind, Dom.linkBehind, Dom.linkBefore, linkNext, linkHead]
      | some prev =>
          simp [hthis, hp, hbefore prev hp, except_ok_bind, Dom.linkBehind, Dom.linkBefore, linkNext,
            linkHead]
  | some next =>
      cases hp : d.prev x with
      | none =>
          simp [hthis, hp, hbehind next hl, hne next hl, except_ok_bind, Dom.linkBehind,
            Dom.linkBefore, linkNext, linkHead]
      | some prev =>
          simp [hp, hbefore prev hp, hbehind next hl, hne next hl, except_ok_bind, Dom.linkBehind,
            Dom.linkBefore, linkNext, linkHead]

/-- Loose nodes that know their parent again, or are gone. -/
theorem forget {loose : Nat → Prop} (h : HoldsExcept loose d F)
    (hloose : ∀ c p, loose c → d.alive c = true → (d.parent c = some p ↔ c ∈ F.children p)) :
    Holds d F := by
  constructor
  · exact h.wellFormed
  · exact h.fresh
  · exact h.node
  · exact h.list
  · intro c p _ hc
    by_cases hl : loose c
    · exact hloose c p hl hc
    · exact h.parent c p hl hc

theorem removeChild_spec (h : Holds d F) (hx : x ∈ F.children this) :
    ∃ d', d.RemoveChild this (some x) = .ok (true, d') ∧
      Holds d' ((F.setChildren this ((F.children this).erase x)).free [x]) := by
  obtain ⟨as, cs, hlist, hnot⟩ := List.eq_append_cons_of_mem hx
  have hthis := h.alive_of_isSome (h.wellFormed.isSome this x hx).1
  have halive := h.alive_child hx
  have hall := h.list this hthis
  rw [hlist] at hall
  have herase : (F.children this).erase x = as ++ cs := by
    rw [hlist, List.erase_append_right _ hnot, List.erase_cons_head]
  obtain ⟨hwell, hroot⟩ := h.wellFormed.cut hlist
  have hcut : HoldsExcept (fun c => c = x) (d.cut this as.getLast? cs.head?)
      (F.setChildren this (as ++ cs)) := by
    have hlist' : F.children this = as ++ ([x] ++ cs) := hlist
    apply h.cut hthis hlist' hwell
    intro c p hcx hc
    rw [h.parent c p (by simp) hc]
    by_cases hp : p = this
    · rw [hp, Forest.setChildren_self, hlist]
      simp [hcx]
    · rw [Forest.setChildren_of_ne hp]
  have hroots : ∀ y ∈ [x], (F.setChildren this (as ++ cs)).Root y := by
    intro y hy
    rwa [List.mem_singleton.mp hy]
  have hdelete := hcut.delete_alive halive
  refine ⟨(d.cut this as.getLast? cs.head?).withAlive
    (without (F.setChildren this (as ++ cs)) d.alive [x]), ?_, ?_⟩
  · unfold Dom.RemoveChild
    dsimp only
    rw [Dom.check_ok halive, except_ok_bind, Dom.assert_true (by simp [h.parent_child hx]),
      except_ok_bind, hall.prev_eq, hall.next_eq, h.relink_ok hlist, except_ok_bind]
    change ((d.cut this as.getLast? cs.head?).delete (d.cut this as.getLast? cs.head?).fresh x >>=
      fun d => Except.ok (true, d)) = _
    rw [hdelete, except_ok_bind]
    rfl
  · rw [herase]
    apply (hcut.free hroots).forget
    intro c p hcx hc
    obtain ⟨_, hgone⟩ := without_iff.mp hc
    exact absurd ⟨x, List.mem_singleton_self x, by rw [hcx]; exact .refl _ x⟩ hgone

/-- The links of a root may be any. -/
theorem setLinks {loose : Nat → Prop} (h : HoldsExcept loose d F) (hroot : F.Root n)
    (next prev : Option Nat) :
    HoldsExcept loose { d with next := update d.next n next, prev := update d.prev n prev } F := by
  constructor
  · exact h.wellFormed
  · exact h.fresh
  · exact h.node
  · intro p hp
    have hne : ∀ c ∈ F.children p, c ≠ n := fun c hc he => hroot p (he ▸ hc)
    exact (h.list p hp).congr (fun c hc => Function.update_of_ne (hne c hc) ..)
      fun c hc => Function.update_of_ne (hne c hc) ..
  · exact h.parent

/-- The forest in which a root stands for a child. -/
theorem replaced (h : Holds d F) (hfit : F.Fits this n) (hlist : F.children this = as ++ x :: cs) :
    (F.setChildren this (as ++ n :: cs)).WellFormed ∧
      (F.setChildren this (as ++ n :: cs)).Root x ∧
        ¬ (F.setChildren this (as ++ n :: cs)).Below x n := by
  have hx : x ∈ F.children this := by rw [hlist]; simp
  have hxn : x ≠ n := fun he => hfit.root this (he ▸ hx)
  obtain ⟨hcut, hroot⟩ := h.wellFormed.cut hlist
  have htwice : (F.setChildren this (as ++ cs)).setChildren this (as ++ n :: cs) =
      F.setChildren this (as ++ n :: cs) := by
    simp [Forest.setChildren]
  have hwell : (F.setChildren this (as ++ n :: cs)).WellFormed := by
    rw [← htwice]
    apply hcut.put (Forest.setChildren_self ..) hfit.isSome
    · obtain ⟨t, ht, _⟩ := hfit.notDocument
      rw [Forest.setChildren_node, ht]
      rfl
    · intro q hq
      rcases Forest.setChildren_cases hq with ⟨rfl, hin⟩ | ⟨_, hin⟩
      · apply hfit.root q
        rw [hlist]
        simp only [List.mem_append, List.mem_cons] at hin ⊢
        tauto
      · exact hfit.root q hin
    · exact fun hbelow => hfit.notBelow (Forest.below_of_setChildren hbelow)
  refine ⟨hwell, ?_, ?_⟩
  · intro q hq
    rcases Forest.setChildren_cases hq with ⟨rfl, hin⟩ | ⟨hne, hin⟩
    · apply hroot q
      rw [Forest.setChildren_self]
      simp only [List.mem_append, List.mem_cons] at hin ⊢
      tauto
    · exact hne (h.wellFormed.unique q this x hin hx)
  · intro hbelow
    have hin : n ∈ (F.setChildren this (as ++ n :: cs)).children this := by
      rw [Forest.setChildren_self]
      simp
    have habove := hwell.below_parent hbelow hxn.symm hin
    exact h.wellFormed.not_below hx (Forest.below_of_setChildren habove)

theorem replaceChild_spec (h : Holds d F) (hfit : F.Fits this n)
    (hlist : F.children this = as ++ x :: cs) :
    ∃ d', d.ReplaceChild this (some x) n = .ok (some n, d') ∧
      Holds d' ((F.setChildren this (as ++ n :: cs)).free [x]) := by
  obtain ⟨hwell, hroot, hbelow⟩ := h.replaced hfit hlist
  have hthis := h.alive_of_isSome hfit.isSome
  obtain ⟨hn, htype⟩ := h.type_of_fits hfit
  have hx : x ∈ F.children this := by rw [hlist]; simp
  have halive := h.alive_child hx
  have hall := h.list this hthis
  rw [hlist] at hall
  have hput : HoldsExcept (fun c => c = x ∨ c = n) (d.put this n as.getLast? cs.head?)
      (F.setChildren this (as ++ n :: cs)) := by
    have hlist' : F.children this = as ++ ([x] ++ cs) := hlist
    apply h.put hthis hlist' hwell
    intro c p hc hac
    rw [not_or] at hc
    rw [h.parent c p (by simp) hac]
    by_cases hp : p = this
    · rw [hp, Forest.setChildren_self, hlist]
      simp [hc.1, hc.2]
    · rw [Forest.setChildren_of_ne hp]
  have hroots : ∀ y ∈ [x], (F.setChildren this (as ++ n :: cs)).Root y := by
    intro y hy
    rwa [List.mem_singleton.mp hy]
  have hdelete := hput.delete_alive halive
  have hnalive : without (F.setChildren this (as ++ n :: cs)) d.alive [x] n = true := by
    rw [without_iff, Forest.belowAny_singleton]
    exact ⟨hn, hbelow⟩
  have hfree := (hput.free hroots).setParent n (some this)
  refine ⟨_, ?_, hfree.forget ?_⟩
  · have hlinks := (h.setLinks hfit.root cs.head? as.getLast?).relink_ok hlist (some n) (some n)
    unfold Dom.ReplaceChild
    simp only [Dom.check_ok halive, except_ok_bind, h.parent_child hx, ne_eq, not_true_eq_false,
      if_false, htype, Dom.setNext_ok hn, hall.next_eq, hall.prev_eq]
    rw [Dom.setPrev_ok (by exact hn), except_ok_bind]
    dsimp only
    rw [hlinks, except_ok_bind]
    change ((d.put this n as.getLast? cs.head?).delete (d.put this n as.getLast? cs.head?).fresh x
      >>= _) = _
    rw [hdelete, except_ok_bind, Dom.setParent_ok hnalive, except_ok_bind]
  · intro c p hc hac
    obtain ⟨_, hgone⟩ := without_iff.mp hac
    by_cases hcn : c = n
    · subst hcn
      change update d.parent c (some this) c = some p ↔ _
      rw [Function.update_self, Forest.mem_free_children, Forest.belowAny_singleton]
      by_cases hp : p = this
      · subst hp
        rw [Forest.setChildren_self]
        have habove : ¬ (F.setChildren p (as ++ c :: cs)).Below x p :=
          fun hxp => h.wellFormed.not_below hx (Forest.below_of_setChildren hxp)
        simp [habove]
      · rw [Forest.setChildren_of_ne hp]
        constructor
        · exact fun he => absurd (Option.some.inj he).symm hp
        · exact fun hin => absurd hin.2 (hfit.root p)
    · have hcx : c = x := (hc.resolve_right hcn).resolve_right hcn
      exact absurd ⟨x, List.mem_singleton_self x, by rw [hcx]; exact .refl _ x⟩ hgone

theorem clear_spec (h : Holds d F) (hthis : d.alive this = true) :
    ∃ d', d.Clear this = .ok d' ∧
      Holds d' ((F.setChildren this []).free (F.children this)) := by
  have hroots : ∀ x ∈ F.children this, (F.setChildren this []).Root x :=
    fun x hx => h.wellFormed.root_of_not_mem hx List.not_mem_nil
  have hchildren : Dom.deleteFrom (Dom.delete d.fresh) d.fresh d (d.firstChild this) =
      .ok (d.withAlive (without F d.alive (F.children this))) := by
    have hall : ∀ x ∈ F.children this, Deletes d F d.fresh x := by
      intro x hx
      have hnone : ∀ y ∈ ([] : List Nat), F.Below y x ∧ y < d.fresh := fun y hy => nomatch hy
      exact h.delete_spec (h.alive_child hx) (List.nodup_singleton x) (fun y hy => (hnone y hy).1)
        (fun y hy => (hnone y hy).2) (Nat.le_add_right _ _)
    exact h.deleteFrom_spec (h.list this hthis).forward (fun _ hc => hc)
      (h.wellFormed.nodup this) (h.length_children_le this) hall
      fun x hx y hy => h.alive_below (h.alive_child hx) hy
  have hwithout : without F d.alive (F.children this) =
      without (F.setChildren this []) d.alive (F.children this) := by
    funext y
    rw [Bool.eq_iff_iff, without_iff, without_iff]
    apply and_congr_right
    intro _
    apply not_congr
    apply exists_congr
    intro x
    apply and_congr_right
    intro hx
    exact (h.wellFormed.below_without (List.nil_subset _) hx).symm
  have hthis' : (d.withAlive (without F d.alive (F.children this))).alive this = true := by
    apply without_iff.mpr
    refine ⟨hthis, ?_⟩
    intro hbelow
    obtain ⟨x, hx, hxt⟩ := hbelow
    exact h.wellFormed.not_below hx hxt
  have hempty : HoldsExcept (· ∈ F.children this)
      { d with firstChild := update d.firstChild this none
               lastChild := update d.lastChild this none } (F.setChildren this []) := by
    have hnodes : ({ d with firstChild := update d.firstChild this none
                            lastChild := update d.lastChild this none } : Dom).nodes = d.nodes :=
      rfl
    apply h.relist hnodes (h.wellFormed.sublist (List.nil_sublist _))
    · simp only [Function.update_self]
      exact doubly_nil d.next d.prev
    · intro q hq
      simp [Function.update_of_ne hq]
    · intro c p hc hac
      change d.parent c = some p ↔ _
      rw [h.parent c p (by simp) hac]
      by_cases hp : p = this
      · rw [hp, Forest.setChildren_self]
        simp [hc]
      · rw [Forest.setChildren_of_ne hp]
  refine ⟨_, ?_, (hempty.free hroots).forget ?_⟩
  · unfold Dom.Clear
    rw [Dom.check_ok hthis, except_ok_bind, hchildren, except_ok_bind,
      Dom.setFirstChild_ok hthis', except_ok_bind, Dom.setLastChild_ok (by exact hthis'), hwithout]
    rfl
  · intro c p hc hac
    obtain ⟨_, hgone⟩ := without_iff.mp hac
    exact absurd ⟨c, hc, .refl _ c⟩ hgone

end HoldsExcept

end TinyXml

end CommonCc
