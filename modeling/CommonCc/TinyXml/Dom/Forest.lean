import CommonCc.Lib.Doubly
import CommonCc.Lib.Transition
import CommonCc.TinyXml.Dom.Model
import Mathlib.Logic.Relation

/-!
# Forests

What the pointers are for: every node has a list of children and at most one parent, and no node
is below itself.
-/

namespace CommonCc

namespace TinyXml

/-- The nodes that there are, with their types and values, and their children in order. -/
structure Forest where
  fresh : Nat
  node : Nat → Option (DomType × Bytes)
  children : Nat → List Nat

namespace Forest

open Function (update)

variable {F : Forest} {p x y z n : Nat}

/-- `y` is `x` or a descendant of it. -/
def Below (F : Forest) (x y : Nat) : Prop :=
  Relation.ReflTransGen (fun a b => b ∈ F.children a) x y

theorem Below.refl (F : Forest) (x : Nat) : F.Below x x := Relation.ReflTransGen.refl

theorem Below.trans (h : F.Below x y) (h' : F.Below y z) : F.Below x z :=
  Relation.ReflTransGen.trans h h'

theorem Below.child (h : y ∈ F.children x) : F.Below x y := Relation.ReflTransGen.single h

/-- A node without a parent. -/
def Root (F : Forest) (x : Nat) : Prop := ∀ p, x ∉ F.children p

structure WellFormed (F : Forest) : Prop where
  node_lt : ∀ x, (F.node x).isSome → x < F.fresh
  nodup : ∀ p, (F.children p).Nodup
  isSome : ∀ p, ∀ c ∈ F.children p, (F.node p).isSome ∧ (F.node c).isSome
  unique : ∀ p q c, c ∈ F.children p → c ∈ F.children q → p = q
  ranked : ∃ rank : Nat → Nat, ∀ p, ∀ c ∈ F.children p, rank c < rank p

/-! ## Descendants -/

theorem WellFormed.not_below (h : F.WellFormed) (hy : y ∈ F.children x) : ¬ F.Below y x := by
  obtain ⟨rank, hrank⟩ := h.ranked
  have hle : ∀ {a b}, F.Below a b → rank b ≤ rank a := by
    intro a b hab
    induction hab with
    | refl => exact Nat.le_refl _
    | tail _ hstep ih => exact Nat.le_trans (Nat.le_of_lt (hrank _ _ hstep)) ih
  intro hbelow
  exact absurd (hle hbelow) (Nat.not_le_of_lt (hrank x y hy))

/-- A descendant is the node itself or below one of its children. -/
theorem Below.cases_child (h : F.Below x y) : y = x ∨ ∃ c ∈ F.children x, F.Below c y := by
  rcases Relation.ReflTransGen.cases_head h with heq | ⟨c, hc, hcy⟩
  · exact .inl heq.symm
  · exact .inr ⟨c, hc, hcy⟩

/-- The parent of a descendant is one, too. -/
theorem WellFormed.below_parent (h : F.WellFormed) (hxy : F.Below x y) (hne : y ≠ x)
    (hp : y ∈ F.children p) : F.Below x p := by
  rcases Relation.ReflTransGen.cases_tail hxy with heq | ⟨q, hq, hqy⟩
  · exact absurd heq hne
  · rw [h.unique p q y hp hqy]
    exact hq

/-- Siblings have no descendant in common. -/
theorem WellFormed.siblings_disjoint (h : F.WellFormed) (hx : x ∈ F.children p)
    (hy : y ∈ F.children p) (hne : x ≠ y) (hxz : F.Below x z) : ¬ F.Below y z := by
  induction hxz with
  | refl =>
      intro hbelow
      exact h.not_below hy (h.below_parent hbelow hne hx)
  | @tail a b hxa hab ih =>
      intro hbelow
      by_cases hby : b = y
      · subst hby
        rw [h.unique a p b hab hy] at hxa
        exact h.not_below hx hxa
      · exact ih (h.below_parent hbelow hby hab)

theorem WellFormed.isSome_below (h : F.WellFormed) (hx : (F.node x).isSome)
    (hxy : F.Below x y) : (F.node y).isSome := by
  induction hxy with
  | refl => exact hx
  | tail _ hstep _ => exact (h.isSome _ _ hstep).2

def empty : Forest := ⟨0, fun _ => none, fun _ => []⟩

theorem wellFormed_empty : empty.WellFormed where
  node_lt x h := by cases h
  nodup p := List.nodup_nil
  isSome p c h := by cases h
  unique p q c h := by cases h
  ranked := ⟨id, fun p c h => by cases h⟩

/-! ## Operations -/

def new (F : Forest) (type : DomType) (value : Bytes) : Forest where
  fresh := F.fresh + 1
  node := update F.node F.fresh (some (type, value))
  children := update F.children F.fresh []

/-- New children of a node. -/
def setChildren (F : Forest) (p : Nat) (l : List Nat) : Forest :=
  { F with children := update F.children p l }

/-- A node of the list or a descendant of one. -/
def BelowAny (F : Forest) (xs : List Nat) (y : Nat) : Prop := ∃ x ∈ xs, F.Below x y

theorem belowAny_singleton : F.BelowAny [x] y ↔ F.Below x y := by
  simp [BelowAny]

/-- Nodes go with all nodes below them. -/
noncomputable def free (F : Forest) (xs : List Nat) : Forest :=
  open Classical in
  { F with
    node := fun y => if F.BelowAny xs y then none else F.node y
    children := fun y => if F.BelowAny xs y then [] else F.children y }

/-! ## Well-formed forests -/

@[simp] theorem setChildren_node (F : Forest) (p : Nat) (l : List Nat) :
    (F.setChildren p l).node = F.node := rfl

@[simp] theorem setChildren_fresh (F : Forest) (p : Nat) (l : List Nat) :
    (F.setChildren p l).fresh = F.fresh := rfl

theorem setChildren_self (F : Forest) (p : Nat) (l : List Nat) :
    (F.setChildren p l).children p = l := Function.update_self ..

theorem setChildren_of_ne {q : Nat} (h : q ≠ p) (l : List Nat) :
    (F.setChildren p l).children q = F.children q := Function.update_of_ne h ..

theorem WellFormed.children_fresh (h : F.WellFormed) : F.children F.fresh = [] := by
  apply List.eq_nil_iff_forall_not_mem.mpr
  intro c hc
  exact absurd (h.node_lt _ (h.isSome _ c hc).1) (Nat.lt_irrefl _)

theorem WellFormed.new_children (h : F.WellFormed) (type : DomType) (value : Bytes) :
    (F.new type value).children = F.children := by
  rw [Forest.new, ← h.children_fresh, Function.update_eq_self]

theorem WellFormed.new (h : F.WellFormed) (type : DomType) (value : Bytes) :
    (F.new type value).WellFormed := by
  have hnode : ∀ x, (F.node x).isSome → ((F.new type value).node x).isSome := by
    intro x hx
    have hne : x ≠ F.fresh := Nat.ne_of_lt (h.node_lt x hx)
    rw [Forest.new]
    simp only [Function.update_of_ne hne]
    exact hx
  constructor
  · intro x hx
    rw [Forest.new] at hx ⊢
    by_cases hne : x = F.fresh
    · exact hne ▸ Nat.lt_succ_self _
    · simp only [Function.update_of_ne hne] at hx
      exact Nat.lt_succ_of_lt (h.node_lt x hx)
  · rw [h.new_children]
    exact h.nodup
  · rw [h.new_children]
    intro p c hc
    exact ⟨hnode p (h.isSome p c hc).1, hnode c (h.isSome p c hc).2⟩
  · rw [h.new_children]
    exact h.unique
  · rw [h.new_children]
    exact h.ranked

/-- Where children were added to or taken from `p` only. -/
theorem setChildren_cases {l : List Nat} {q c : Nat} (hc : c ∈ (F.setChildren p l).children q) :
    q = p ∧ c ∈ l ∨ q ≠ p ∧ c ∈ F.children q := by
  by_cases hq : q = p
  · subst hq
    rw [setChildren_self] at hc
    exact .inl ⟨rfl, hc⟩
  · rw [setChildren_of_ne hq] at hc
    exact .inr ⟨hq, hc⟩

/-- The way down to a node does not go through its children. -/
theorem below_of_setChildren {l : List Nat} (h : (F.setChildren p l).Below x p) : F.Below x p := by
  induction h using Relation.ReflTransGen.head_induction_on with
  | refl => exact .refl F p
  | head hstep _ ih =>
      rcases setChildren_cases hstep with ⟨rfl, _⟩ | ⟨_, hin⟩
      · exact .refl F _
      · exact (Below.child hin).trans ih

/-- A root comes under a node that is not below it. -/
theorem WellFormed.put (h : F.WellFormed) {as cs : List Nat} (hp : F.children p = as ++ cs)
    (hpn : (F.node p).isSome) (hn : (F.node n).isSome) (hroot : F.Root n) (hbelow : ¬ F.Below n p) :
    (F.setChildren p (as ++ n :: cs)).WellFormed := by
  have hmem : ∀ c, c ∈ as ++ n :: cs → c = n ∨ c ∈ F.children p := by
    intro c hc
    rw [hp]
    simp only [List.mem_append, List.mem_cons] at hc ⊢
    tauto
  constructor
  · exact h.node_lt
  · intro q
    by_cases hq : q = p
    · rw [hq, setChildren_self]
      have hnodup := h.nodup p
      have hnot := hroot p
      rw [hp] at hnodup hnot
      exact List.nodup_middle.mpr (List.nodup_cons.mpr ⟨hnot, hnodup⟩)
    · rw [setChildren_of_ne hq]
      exact h.nodup q
  · intro q c hc
    rcases setChildren_cases hc with ⟨rfl, hin⟩ | ⟨_, hin⟩
    · rcases hmem c hin with rfl | hold
      · exact ⟨hpn, hn⟩
      · exact h.isSome _ _ hold
    · exact h.isSome _ _ hin
  · intro q r c hq hr
    have hold : ∀ s, c ∈ (F.setChildren p (as ++ n :: cs)).children s → c ≠ n →
        c ∈ F.children s := by
      intro s hs hcn
      rcases setChildren_cases hs with ⟨rfl, hin⟩ | ⟨_, hin⟩
      · exact (hmem c hin).resolve_left hcn
      · exact hin
    by_cases hcn : c = n
    · subst hcn
      have hin : ∀ s, c ∈ (F.setChildren p (as ++ c :: cs)).children s → s = p := by
        intro s hs
        rcases setChildren_cases hs with ⟨hsp, _⟩ | ⟨_, hs⟩
        · exact hsp
        · exact absurd hs (hroot s)
      rw [hin q hq, hin r hr]
    · exact h.unique q r c (hold q hq hcn) (hold r hr hcn)
  · classical
    obtain ⟨rank, hrank⟩ := h.ranked
    -- whatever has `p` below it moves above the new child
    refine ⟨fun x => if F.Below x p then rank x + rank n + 1 else rank x, ?_⟩
    intro q c hc
    rcases setChildren_cases hc with ⟨rfl, hin⟩ | ⟨_, hin⟩
    · simp only [if_pos (Below.refl F q)]
      rcases hmem c hin with rfl | hold
      · rw [if_neg hbelow]
        omega
      · rw [if_neg (h.not_below hold)]
        have hlt := hrank _ _ hold
        omega
    · have hlt := hrank _ _ hin
      by_cases hcp : F.Below c p
      · simp only [if_pos hcp, if_pos ((Below.child hin).trans hcp)]
        omega
      · simp only [if_neg hcp]
        split <;> omega

/-- Some children are left out. -/
theorem WellFormed.sublist (h : F.WellFormed) {l : List Nat} (hl : l.Sublist (F.children p)) :
    (F.setChildren p l).WellFormed := by
  have hold : ∀ {q c}, c ∈ (F.setChildren p l).children q → c ∈ F.children q := by
    intro q c hc
    rcases setChildren_cases hc with ⟨rfl, hin⟩ | ⟨_, hin⟩
    · exact hl.subset hin
    · exact hin
  constructor
  · exact h.node_lt
  · intro q
    by_cases hq : q = p
    · rw [hq, setChildren_self]
      exact hl.nodup (h.nodup p)
    · rw [setChildren_of_ne hq]
      exact h.nodup q
  · exact fun q c hc => h.isSome q c (hold hc)
  · exact fun q r c hq hr => h.unique q r c (hold hq) (hold hr)
  · obtain ⟨rank, hrank⟩ := h.ranked
    exact ⟨rank, fun q c hc => hrank q c (hold hc)⟩

/-- A child that is left out is a root. -/
theorem WellFormed.root_of_not_mem (h : F.WellFormed) {l : List Nat} (hx : x ∈ F.children p)
    (hl : x ∉ l) : (F.setChildren p l).Root x := by
  intro q hq
  rcases setChildren_cases hq with ⟨_, hin⟩ | ⟨hne, hin⟩
  · exact hl hin
  · exact hne (h.unique q p x hin hx)

theorem WellFormed.cut (h : F.WellFormed) {as cs : List Nat} (hp : F.children p = as ++ x :: cs) :
    (F.setChildren p (as ++ cs)).WellFormed ∧ (F.setChildren p (as ++ cs)).Root x := by
  have hnodup := h.nodup p
  rw [hp] at hnodup
  constructor
  · apply h.sublist
    rw [hp]
    exact (List.sublist_cons_self x cs).append_left as
  · apply h.root_of_not_mem
    · rw [hp]
      simp
    · exact (List.nodup_cons.mp (List.nodup_middle.mp hnodup)).1

/-- What is below a child is so without the list of its parent. -/
theorem WellFormed.below_without (h : F.WellFormed) {l : List Nat} (hl : l ⊆ F.children p)
    (hx : x ∈ F.children p) : (F.setChildren p l).Below x y ↔ F.Below x y := by
  constructor
  · intro hxy
    induction hxy with
    | refl => exact .refl F x
    | tail _ hstep ih =>
        rcases setChildren_cases hstep with ⟨rfl, hin⟩ | ⟨_, hin⟩
        · exact ih.trans (.child (hl hin))
        · exact ih.trans (.child hin)
  · intro hxy
    induction hxy with
    | refl => exact .refl _ x
    | @tail a b hxa hab ih =>
        have hne : a ≠ p := fun he => h.not_below hx (he ▸ hxa)
        apply ih.trans
        apply Below.child
        rwa [setChildren_of_ne hne]

variable {xs : List Nat}

theorem free_children (F : Forest) (xs : List Nat) (y : Nat) :
    (¬ F.BelowAny xs y ∧ (F.free xs).children y = F.children y) ∨
      (F.BelowAny xs y ∧ (F.free xs).children y = []) := by
  by_cases hy : F.BelowAny xs y
  · exact .inr ⟨hy, if_pos hy⟩
  · exact .inl ⟨hy, if_neg hy⟩

theorem mem_free_children : y ∈ (F.free xs).children p ↔ ¬ F.BelowAny xs p ∧ y ∈ F.children p := by
  rcases free_children F xs p with ⟨hp, he⟩ | ⟨hp, he⟩
  · simp [he, hp]
  · simp [he, hp]

theorem free_node_of_not_below (h : ¬ F.BelowAny xs y) : (F.free xs).node y = F.node y := if_neg h

theorem free_node_of_below (h : F.BelowAny xs y) : (F.free xs).node y = none := if_pos h

theorem BelowAny.child (h : F.BelowAny xs p) (hy : y ∈ F.children p) : F.BelowAny xs y := by
  obtain ⟨x, hx, hxp⟩ := h
  exact ⟨x, hx, hxp.trans (.child hy)⟩

/-- What is below roots has its parent there, or is one of them. -/
theorem WellFormed.not_below_child (h : F.WellFormed) (hroot : ∀ x ∈ xs, F.Root x)
    (hp : ¬ F.BelowAny xs p) (hy : y ∈ F.children p) : ¬ F.BelowAny xs y := by
  intro hbelow
  obtain ⟨x, hx, hxy⟩ := hbelow
  by_cases hyx : y = x
  · exact hroot x hx p (hyx ▸ hy)
  · exact hp ⟨x, hx, h.below_parent hxy hyx hy⟩

theorem WellFormed.free (h : F.WellFormed) (hroot : ∀ x ∈ xs, F.Root x) :
    (F.free xs).WellFormed := by
  constructor
  · intro y hy
    by_cases hxy : F.BelowAny xs y
    · rw [free_node_of_below hxy] at hy
      cases hy
    · rw [free_node_of_not_below hxy] at hy
      exact h.node_lt y hy
  · intro q
    rcases free_children F xs q with ⟨_, he⟩ | ⟨_, he⟩
    · rw [he]
      exact h.nodup q
    · rw [he]
      exact List.nodup_nil
  · intro q c hc
    obtain ⟨hq, hin⟩ := mem_free_children.mp hc
    rw [free_node_of_not_below hq, free_node_of_not_below (h.not_below_child hroot hq hin)]
    exact h.isSome q c hin
  · exact fun q r c hq hr =>
      h.unique q r c (mem_free_children.mp hq).2 (mem_free_children.mp hr).2
  · obtain ⟨rank, hrank⟩ := h.ranked
    exact ⟨rank, fun q c hc => hrank q c (mem_free_children.mp hc).2⟩

end Forest

end TinyXml

end CommonCc
