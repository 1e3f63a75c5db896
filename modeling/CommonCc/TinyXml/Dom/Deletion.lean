import CommonCc.TinyXml.Dom.Forest
import Mathlib.Data.List.Perm.Subperm

/-!
# Deletion

`delete` goes through the nodes below a node, each of them once, and reads none that is gone.
-/

namespace CommonCc

namespace TinyXml

open Function (update)

variable {d : Dom} {F : Forest} {x y p n : Nat} {loose : Nat → Prop}

/-- The pointers are those of a forest, where a loose node does not have to know its parent. -/
structure HoldsExcept (loose : Nat → Prop) (d : Dom) (F : Forest) : Prop where
  wellFormed : F.WellFormed
  fresh : d.fresh = F.fresh
  node : ∀ x, F.node x = if d.alive x then some (d.type x, d.value x) else none
  list : ∀ p, d.alive p → Doubly d.next d.prev (d.firstChild p) (d.lastChild p) (F.children p)
  parent : ∀ c p, ¬ loose c → d.alive c → (d.parent c = some p ↔ c ∈ F.children p)

abbrev Holds (d : Dom) (F : Forest) : Prop := HoldsExcept (fun _ => False) d F

theorem HoldsExcept.alive_iff (h : HoldsExcept loose d F) :
    d.alive x = true ↔ (F.node x).isSome := by
  rw [h.node x]
  split <;> simp_all

theorem HoldsExcept.alive_child (h : HoldsExcept loose d F) (hx : x ∈ F.children p) :
    d.alive x = true := h.alive_iff.mpr (h.wellFormed.isSome p x hx).2

theorem HoldsExcept.alive_below (h : HoldsExcept loose d F) (hx : d.alive x = true)
    (hy : F.Below x y) : d.alive y = true :=
  h.alive_iff.mpr (h.wellFormed.isSome_below (h.alive_iff.mp hx) hy)

theorem HoldsExcept.lt_fresh (h : HoldsExcept loose d F) (hx : d.alive x = true) : x < d.fresh := by
  rw [h.fresh]
  exact h.wellFormed.node_lt x (h.alive_iff.mp hx)

/-- As many different addresses as there are below a bound. -/
theorem length_le_of_nodup {l : List Nat} {m : Nat} (hl : l.Nodup) (hlt : ∀ x ∈ l, x < m) :
    l.length ≤ m := by
  have hsub : l ⊆ List.range m := fun x hx => List.mem_range.mpr (hlt x hx)
  have hle := (List.subperm_of_subset hl hsub).length_le
  rwa [List.length_range] at hle

theorem HoldsExcept.length_children_le (h : HoldsExcept loose d F) (p : Nat) :
    (F.children p).length ≤ d.fresh :=
  length_le_of_nodup (h.wellFormed.nodup p) fun _ hx => h.lt_fresh (h.alive_child hx)

namespace Dom

/-- The memory with other nodes alive. -/
def withAlive (d : Dom) (a : Nat → Bool) : Dom := { d with alive := a }

theorem check_ok (h : d.alive x = true) : d.check x = .ok () := by rw [check, if_pos h]

end Dom

open Classical in
/-- The nodes below `xs` are gone. -/
noncomputable def without (F : Forest) (a : Nat → Bool) (xs : List Nat) (y : Nat) : Bool :=
  if F.BelowAny xs y then false else a y

theorem without_iff {a : Nat → Bool} {xs : List Nat} :
    without F a xs y = true ↔ a y = true ∧ ¬ F.BelowAny xs y := by
  rw [without]
  split <;> simp_all

theorem without_nil (F : Forest) (a : Nat → Bool) : without F a [] = a := by
  funext y
  rw [Bool.eq_iff_iff, without_iff]
  simp [Forest.BelowAny]

theorem without_cons (F : Forest) (a : Nat → Bool) (x : Nat) (xs : List Nat) :
    without F a (x :: xs) = without F (without F a [x]) xs := by
  funext y
  rw [Bool.eq_iff_iff, without_iff, without_iff, without_iff]
  simp [Forest.BelowAny, and_assoc]

/-- The children of a node go first, and then the node itself. -/
theorem without_children (F : Forest) (a : Nat → Bool) (x : Nat) :
    update (without F a (F.children x)) x false = without F a [x] := by
  funext y
  rw [Bool.eq_iff_iff, without_iff, Forest.belowAny_singleton]
  by_cases hy : y = x
  · subst hy
    simp [Forest.Below.refl]
  · rw [Function.update_of_ne hy, without_iff]
    apply and_congr_right
    intro _
    apply not_congr
    constructor
    · intro h
      obtain ⟨c, hc, hcy⟩ := h
      exact (Forest.Below.child hc).trans hcy
    · intro h
      exact h.cases_child.resolve_left hy

theorem without_of_not_below {a : Nat → Bool} {xs : List Nat} (h : ¬ F.BelowAny xs y) :
    without F a xs y = a y := by
  rw [Bool.eq_iff_iff, without_iff]
  simp [h]

/-! ## The recursion -/

namespace HoldsExcept

/-- What the deletion of a node comes to, where the nodes below it are still there. -/
def Deletes (d : Dom) (F : Forest) (depth x : Nat) : Prop :=
  ∀ a : Nat → Bool, (∀ y, F.Below x y → a y = true) →
    (d.withAlive a).delete depth x = .ok (d.withAlive (without F a [x]))

/-- The loop over siblings. -/
theorem deleteFrom_spec (h : HoldsExcept loose d F) {depth : Nat} {xs : List Nat} {cur : Option Nat}
    {width : Nat} (hlink : Linked d.next cur xs) (hsub : ∀ x ∈ xs, x ∈ F.children p)
    (hnodup : xs.Nodup) (hwidth : xs.length ≤ width) (hdelete : ∀ x ∈ xs, Deletes d F depth x)
    {a : Nat → Bool} (ha : ∀ x ∈ xs, ∀ y, F.Below x y → a y = true) :
    Dom.deleteFrom (Dom.delete depth) width (d.withAlive a) cur =
      .ok (d.withAlive (without F a xs)) := by
  induction xs generalizing cur width a with
  | nil =>
      obtain rfl : cur = none := hlink
      rw [without_nil]
      cases width <;> rfl
  | cons x xs ih =>
      obtain ⟨rfl, hrest⟩ := hlink
      obtain ⟨hx, hnodup'⟩ := List.nodup_cons.mp hnodup
      cases width with
      | zero => simp at hwidth
      | succ width =>
          have halive : (d.withAlive a).alive x = true := ha x List.mem_cons_self x (.refl F x)
          have hpx : x ∈ F.children p := hsub x List.mem_cons_self
          rw [Dom.deleteFrom, Dom.check_ok halive, except_ok_bind]
          dsimp only
          rw [hdelete x List.mem_cons_self a (ha x List.mem_cons_self), except_ok_bind,
            without_cons F a x xs]
          apply ih hrest (fun z hz => hsub z (List.mem_cons_of_mem x hz)) hnodup'
            (Nat.le_of_succ_le_succ hwidth) fun z hz => hdelete z (List.mem_cons_of_mem x hz)
          intro z hz y hzy
          have hne : z ≠ x := fun he => hx (he ▸ hz)
          rw [without_of_not_below]
          · exact ha z (List.mem_cons_of_mem x hz) y hzy
          · rw [Forest.belowAny_singleton]
            exact h.wellFormed.siblings_disjoint (hsub z (List.mem_cons_of_mem x hz)) hpx hne hzy

/-- Nodes above one another are as many as there can be levels. -/
theorem delete_spec (h : HoldsExcept loose d F) {depth : Nat} {path : List Nat}
    (hx : d.alive x = true) (hpath : (x :: path).Nodup) (habove : ∀ y ∈ path, F.Below y x)
    (hlt : ∀ y ∈ path, y < d.fresh) (hdepth : d.fresh ≤ depth + path.length) :
    Deletes d F depth x := by
  induction depth generalizing x path with
  | zero =>
      have hle : (x :: path).length ≤ d.fresh := by
        apply length_le_of_nodup hpath
        intro y hy
        rcases List.mem_cons.mp hy with rfl | hy
        · exact h.lt_fresh hx
        · exact hlt y hy
      rw [List.length_cons] at hle
      omega
  | succ depth ih =>
      intro a ha
      have halive : (d.withAlive a).alive x = true := ha x (.refl F x)
      rw [Dom.delete, Dom.check_ok halive, except_ok_bind]
      have hchildren : Dom.deleteFrom (Dom.delete depth) d.fresh (d.withAlive a) (d.firstChild x) =
          .ok (d.withAlive (without F a (F.children x))) := by
        apply h.deleteFrom_spec (h.list x hx).forward (fun _ hc => hc) (h.wellFormed.nodup x)
          (h.length_children_le x)
        · intro c hc
          apply @ih c (x :: path) (h.alive_child hc)
          · rw [List.nodup_cons]
            refine ⟨?_, hpath⟩
            intro hmem
            rcases List.mem_cons.mp hmem with rfl | hmem
            · exact h.wellFormed.not_below hc (.refl F c)
            · exact h.wellFormed.not_below hc (habove c hmem)
          · intro y hy
            rcases List.mem_cons.mp hy with rfl | hy
            · exact .child hc
            · exact (habove y hy).trans (.child hc)
          · intro y hy
            rcases List.mem_cons.mp hy with rfl | hy
            · exact h.lt_fresh hx
            · exact hlt y hy
          · rw [List.length_cons]
            omega
        · intro c hc y hcy
          exact ha y ((Forest.Below.child hc).trans hcy)
      change (Dom.deleteFrom (Dom.delete depth) d.fresh (d.withAlive a) (d.firstChild x) >>= _) = _
      rw [hchildren, except_ok_bind, ← without_children]
      rfl

theorem delete_alive (h : HoldsExcept loose d F) (hx : d.alive x = true) :
    d.delete d.fresh x = .ok (d.withAlive (without F d.alive [x])) := by
  have hnone : ∀ y ∈ ([] : List Nat), F.Below y x ∧ y < d.fresh := fun y hy => nomatch hy
  have hdelete : Deletes d F d.fresh x :=
    h.delete_spec hx (List.nodup_singleton x) (fun y hy => (hnone y hy).1)
      (fun y hy => (hnone y hy).2) (Nat.le_add_right _ _)
  exact hdelete d.alive fun y hy => h.alive_below hx hy

/-- Roots are freed, and what is below them. -/
theorem free (h : HoldsExcept loose d F) {xs : List Nat} (hroot : ∀ x ∈ xs, F.Root x) :
    HoldsExcept loose (d.withAlive (without F d.alive xs)) (F.free xs) := by
  constructor
  · exact h.wellFormed.free hroot
  · exact h.fresh
  · intro y
    change (F.free xs).node y = if without F d.alive xs y then some (d.type y, d.value y) else none
    by_cases hxy : F.BelowAny xs y
    · rw [Forest.free_node_of_below hxy, if_neg]
      rw [without_iff]
      exact fun hy => hy.2 hxy
    · rw [Forest.free_node_of_not_below hxy, without_of_not_below hxy, h.node y]
  · intro p hp
    obtain ⟨hp, hxp⟩ := without_iff.mp hp
    rcases Forest.free_children F xs p with ⟨_, he⟩ | ⟨hbelow, _⟩
    · rw [he]
      exact h.list p hp
    · exact absurd hbelow hxp
  · intro c p hloose hc
    obtain ⟨hc, hxc⟩ := without_iff.mp hc
    change d.parent c = some p ↔ c ∈ (F.free xs).children p
    rw [h.parent c p hloose hc, Forest.mem_free_children]
    constructor
    · exact fun hin => ⟨fun hbelow => hxc (hbelow.child hin), hin⟩
    · exact fun hin => hin.2

end HoldsExcept

end TinyXml

end CommonCc
