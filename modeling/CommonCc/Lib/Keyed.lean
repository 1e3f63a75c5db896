import Mathlib.Data.List.Nodup
import Mathlib.Tactic.Common

/-!
# Lists of keyed items

The items of a list with a given key, and the others.  When no key occurs twice
these are one item and its surroundings.
-/

namespace CommonCc

universe u v

variable {α : Type u} {κ : Type v} [DecidableEq κ] (key : α → κ)

/-- The items with key `k`. -/
def withKey (k : κ) (l : List α) : List α := l.filter fun a => key a = k

/-- The items with other keys. -/
def withoutKey (k : κ) (l : List α) : List α := l.filter fun a => key a ≠ k

variable {key}

theorem mem_withKey {k : κ} {l : List α} {a : α} : a ∈ withKey key k l ↔ a ∈ l ∧ key a = k := by
  simp [withKey]

theorem mem_withoutKey {k : κ} {l : List α} {a : α} :
    a ∈ withoutKey key k l ↔ a ∈ l ∧ key a ≠ k := by
  simp [withoutKey]

theorem withKey_append (k : κ) (l l' : List α) :
    withKey key k (l ++ l') = withKey key k l ++ withKey key k l' :=
  List.filter_append ..

theorem withoutKey_append (k : κ) (l l' : List α) :
    withoutKey key k (l ++ l') = withoutKey key k l ++ withoutKey key k l' :=
  List.filter_append ..

theorem withKey_append_withoutKey_perm (k : κ) (l : List α) :
    (withKey key k l ++ withoutKey key k l).Perm l := by
  have h := List.filter_append_perm (fun a => decide (key a = k)) l
  simpa [withKey, withoutKey] using h

theorem withKey_eq_nil {k : κ} {l : List α} : withKey key k l = [] ↔ ∀ a ∈ l, key a ≠ k := by
  simp [withKey]

theorem withKey_eq_self {k : κ} {l : List α} : withKey key k l = l ↔ ∀ a ∈ l, key a = k := by
  simp [withKey]

theorem withoutKey_eq_self {k : κ} {l : List α} :
    withoutKey key k l = l ↔ ∀ a ∈ l, key a ≠ k := by
  simp [withoutKey]

theorem withKey_cons_self (a : α) (l : List α) :
    withKey key (key a) (a :: l) = a :: withKey key (key a) l :=
  List.filter_cons_of_pos (by simp)

theorem withKey_cons_of_ne {k : κ} {a : α} (h : key a ≠ k) (l : List α) :
    withKey key k (a :: l) = withKey key k l :=
  List.filter_cons_of_neg (by simpa using h)

/-- An item before which all items of its key stand. -/
theorem withKey_insert {as bs : List α} {a : α} (hbs : ∀ b ∈ bs, key b ≠ key a) (k : κ) :
    withKey key k (as ++ a :: bs) = withKey key k (as ++ bs) ++ if k = key a then [a] else [] := by
  rw [withKey_append, withKey_append]
  rcases eq_or_ne k (key a) with rfl | hk
  · rw [withKey_cons_self, withKey_eq_nil.mpr hbs, if_pos rfl, List.append_nil]
  · rw [withKey_cons_of_ne hk.symm, if_neg hk, List.append_nil]

theorem withKey_withoutKey_self (k : κ) (l : List α) : withKey key k (withoutKey key k l) = [] :=
  withKey_eq_nil.mpr fun _ ha => (mem_withoutKey.mp ha).2

theorem withKey_withoutKey_of_ne {k k' : κ} (h : k' ≠ k) (l : List α) :
    withKey key k' (withoutKey key k l) = withKey key k' l := by
  rw [withKey, withoutKey, List.filter_filter, withKey]
  refine List.filter_congr fun a _ => ?_
  by_cases ha : key a = k' <;> simp [ha, h]

theorem withKey_withKey_of_ne {k k' : κ} (h : k' ≠ k) (l : List α) :
    withKey key k' (withKey key k l) = [] :=
  withKey_eq_nil.mpr fun _ ha e => h (e.symm.trans (mem_withKey.mp ha).2)

theorem withKey_withKey_self (k : κ) (l : List α) :
    withKey key k (withKey key k l) = withKey key k l :=
  withKey_eq_self.mpr fun _ ha => (mem_withKey.mp ha).2

/-- Only the keys of the items matter. -/
theorem withKey_congr {key' : α → κ} {l : List α} (h : ∀ a ∈ l, key' a = key a) (k : κ) :
    withKey key' k l = withKey key k l :=
  List.filter_congr fun a ha => by rw [h a ha]

theorem map_withKey {β : Type*} {key' : β → κ} {f : α → β} (h : ∀ a, key' (f a) = key a) (k : κ)
    (l : List α) : withKey key' k (l.map f) = (withKey key k l).map f := by
  rw [withKey, List.filter_map, withKey]
  congr 1
  exact List.filter_congr fun a _ => by simp [h]

theorem map_withoutKey {β : Type*} {key' : β → κ} {f : α → β} (h : ∀ a, key' (f a) = key a)
    (k : κ) (l : List α) : withoutKey key' k (l.map f) = (withoutKey key k l).map f := by
  rw [withoutKey, List.filter_map, withoutKey]
  congr 1
  exact List.filter_congr fun a _ => by simp [h]

theorem withKey_eq_singleton {k : κ} {l : List α} {a : α} (h : (l.map key).Nodup) (ha : a ∈ l)
    (hk : key a = k) : withKey key k l = [a] := by
  induction l with
  | nil => simp at ha
  | cons b l ih =>
      obtain ⟨hb, hl⟩ := List.nodup_cons.mp h
      rcases List.mem_cons.mp ha with rfl | ha
      · have hrest : withKey key k l = [] := withKey_eq_nil.mpr fun c hc e =>
          hb (List.mem_map.mpr ⟨c, hc, e.trans hk.symm⟩)
        have hfirst := List.filter_cons_of_pos (p := fun a => decide (key a = k)) (l := l)
          (decide_eq_true hk)
        exact hfirst.trans (congrArg (a :: ·) hrest)
      · have hne : key b ≠ k := fun e => hb (List.mem_map.mpr ⟨a, ha, hk.trans e.symm⟩)
        have hfirst := List.filter_cons_of_neg (p := fun a => decide (key a = k)) (l := l)
          (by simpa using hne)
        exact hfirst.trans (ih hl ha)

/-- Distinct keys: the list falls into what stands before a key, the item with that key,
if any, and what stands behind it. -/
theorem exists_split_key {l : List α} (h : (l.map key).Nodup) (k : κ) :
    ∃ as bs, l = as ++ withKey key k l ++ bs ∧ withoutKey key k l = as ++ bs := by
  by_cases hk : ∃ a ∈ l, key a = k
  · obtain ⟨a, ha, hak⟩ := hk
    rw [withKey_eq_singleton h ha hak]
    obtain ⟨as, bs, rfl⟩ := List.mem_iff_append.mp ha
    have hrest : ∀ b ∈ as ++ bs, key b ≠ k := by
      rw [List.map_append, List.map_cons, List.nodup_middle, List.nodup_cons,
        ← List.map_append] at h
      exact fun b hb e => h.1 (List.mem_map.mpr ⟨b, hb, e.trans hak.symm⟩)
    have ha' : withoutKey key k [a] = [] := by simp [withoutKey, hak]
    refine ⟨as, bs, by simp, ?_⟩
    rw [List.append_cons, withoutKey_append, withoutKey_append, ha', List.append_nil,
      ← withoutKey_append]
    exact withoutKey_eq_self.mpr hrest
  · have hnone : ∀ a ∈ l, key a ≠ k := fun a ha e => hk ⟨a, ha, e⟩
    refine ⟨l, [], ?_, ?_⟩
    · rw [withKey_eq_nil.mpr hnone]
      simp
    · rw [withoutKey_eq_self.mpr hnone]
      simp

theorem nodup_map_withoutKey {l : List α} (h : (l.map key).Nodup) (k : κ) :
    ((withoutKey key k l).map key).Nodup :=
  h.sublist (List.filter_sublist.map key)

/-- Moving the item of a key to the end keeps the keys distinct. -/
theorem nodup_map_touch {l : List α} (h : (l.map key).Nodup) (k : κ) :
    ((withoutKey key k l ++ withKey key k l).map key).Nodup := by
  obtain ⟨as, bs, hl, hw⟩ := exists_split_key h k
  rw [hw]
  refine (List.Perm.nodup_iff ?_).mpr h
  conv_rhs => rw [hl]
  refine List.Perm.map key ?_
  rw [List.append_assoc, List.append_assoc]
  exact (List.perm_append_comm).append_left as

theorem withKey_touch {k k' : κ} (l : List α) :
    withKey key k' (withoutKey key k l ++ withKey key k l) = withKey key k' l := by
  rw [withKey_append]
  rcases eq_or_ne k' k with rfl | h
  · rw [withKey_withoutKey_self, withKey_withKey_self, List.nil_append]
  · rw [withKey_withoutKey_of_ne h, withKey_withKey_of_ne h, List.append_nil]

end CommonCc
