import Mathlib.Data.List.Find
import Mathlib.Data.List.Induction
import Mathlib.Data.List.Nodup
import Mathlib.Order.Lattice
import Mathlib.Tactic.Common

/-!
# Sorted maps

A `std::map` is the list of its pairs in the order of the keys.  The operations are
given on lists; `SortedMap` carries the order of its keys.
-/

namespace CommonCc

universe u v

variable {κ : Type u} {ν : Type v} [LinearOrder κ]

/-- The keys increase from pair to pair. -/
def KeysSorted (l : List (κ × ν)) : Prop := l.Pairwise fun a b => a.1 < b.1

/-- `m[k] = x`. -/
def insertOrAssign (k : κ) (x : ν) : List (κ × ν) → List (κ × ν)
  | [] => [(k, x)]
  | (a, y) :: l =>
      if k < a then (k, x) :: (a, y) :: l
      else if k = a then (k, x) :: l
      else (a, y) :: insertOrAssign k x l

theorem mem_insertOrAssign {k : κ} {x : ν} {l : List (κ × ν)} {p : κ × ν}
    (h : p ∈ insertOrAssign k x l) : p = (k, x) ∨ p ∈ l := by
  induction l with
  | nil => exact .inl (List.mem_singleton.mp h)
  | cons q l ih =>
      obtain ⟨a, y⟩ := q
      rw [insertOrAssign] at h
      split at h
      · exact List.mem_cons.mp h
      · split at h
        · rcases List.mem_cons.mp h with h | h
          · exact .inl h
          · exact .inr (List.mem_cons_of_mem _ h)
        · rcases List.mem_cons.mp h with h | h
          · exact .inr (h ▸ List.mem_cons_self)
          · rcases ih h with h | h
            · exact .inl h
            · exact .inr (List.mem_cons_of_mem _ h)

theorem KeysSorted.insertOrAssign {l : List (κ × ν)} (h : KeysSorted l) (k : κ) (x : ν) :
    KeysSorted (insertOrAssign k x l) := by
  induction l with
  | nil => exact List.pairwise_singleton _ _
  | cons q l ih =>
      obtain ⟨a, y⟩ := q
      obtain ⟨hfirst, hrest⟩ := List.pairwise_cons.mp h
      rw [CommonCc.insertOrAssign]
      split
      · rename_i hlt
        refine List.pairwise_cons.mpr ⟨fun p hp => ?_, h⟩
        rcases List.mem_cons.mp hp with rfl | hp
        · exact hlt
        · exact hlt.trans (hfirst p hp)
      · split
        · rename_i heq
          exact List.pairwise_cons.mpr ⟨fun p hp => heq ▸ hfirst p hp, hrest⟩
        · rename_i hlt hne
          refine List.pairwise_cons.mpr ⟨fun p hp => ?_, ih hrest⟩
          rcases mem_insertOrAssign hp with rfl | hp
          · exact lt_of_le_of_ne (not_lt.mp hlt) (Ne.symm hne)
          · exact hfirst p hp

/-- A new item among items that `f` tells apart. -/
theorem nodup_map_insertOrAssign {β : Type*} {f : κ × ν → β} {k : κ} {x : ν} {l : List (κ × ν)}
    (h : (l.map f).Nodup) (hx : f (k, x) ∉ l.map f) : ((insertOrAssign k x l).map f).Nodup := by
  induction l with
  | nil => exact List.pairwise_singleton _ _
  | cons q l ih =>
      obtain ⟨a, y⟩ := q
      rw [List.map_cons, List.mem_cons, not_or] at hx
      have hl := List.nodup_cons.mp h
      unfold insertOrAssign
      split
      · exact List.nodup_cons.mpr ⟨by rw [List.map_cons, List.mem_cons, not_or]; exact hx, h⟩
      · split
        · exact List.nodup_cons.mpr ⟨hx.2, hl.2⟩
        · refine List.nodup_cons.mpr ⟨fun hmem => ?_, ih hl.2 hx.2⟩
          obtain ⟨p, hp, hpa⟩ := List.mem_map.mp hmem
          cases mem_insertOrAssign hp with
          | inl hnew => exact hx.1 (by rw [← hpa, hnew])
          | inr hold => exact hl.1 (hpa ▸ List.mem_map_of_mem hold)

theorem mem_insertOrAssign_self (k : κ) (x : ν) (l : List (κ × ν)) :
    (k, x) ∈ insertOrAssign k x l := by
  induction l with
  | nil => exact List.mem_singleton.mpr rfl
  | cons q l ih =>
      unfold insertOrAssign
      split
      · exact List.mem_cons_self
      · split
        · exact List.mem_cons_self
        · exact List.mem_cons_of_mem q ih

/-- The pair of a key splits the map into pairs of other keys. -/
theorem KeysSorted.split {l : List (κ × ν)} (h : KeysSorted l) {k : κ} {x : ν}
    (hmem : (k, x) ∈ l) :
    ∃ as bs, l = as ++ (k, x) :: bs ∧ ∀ p ∈ as ++ bs, p.1 ≠ k := by
  obtain ⟨as, bs, hl⟩ := List.append_of_mem hmem
  rw [hl] at h
  obtain ⟨-, htail, hcross⟩ := List.pairwise_append.mp h
  refine ⟨as, bs, hl, fun p hp => ?_⟩
  cases List.mem_append.mp hp with
  | inl hp => exact (hcross p hp (k, x) List.mem_cons_self).ne
  | inr hp => exact ((List.pairwise_cons.mp htail).1 p hp).ne'

/-- A key above all others goes to the end. -/
theorem insertOrAssign_of_gt {l : List (κ × ν)} {k : κ} (x : ν) (h : ∀ p ∈ l, p.1 < k) :
    insertOrAssign k x l = l ++ [(k, x)] := by
  induction l with
  | nil => rfl
  | cons q l ih =>
      obtain ⟨a, y⟩ := q
      obtain ⟨ha, hl⟩ := List.forall_mem_cons.mp h
      have hak : a < k := ha
      rw [insertOrAssign, if_neg hak.asymm, if_neg hak.ne', ih hl, List.cons_append]

/-- Assigning sorted pairs in order to an empty map gives the pairs back. -/
theorem foldl_insertOrAssign {l : List (κ × ν)} (h : KeysSorted l) :
    l.foldl (fun m p => insertOrAssign p.1 p.2 m) [] = l := by
  induction l using List.reverseRecOn with
  | nil => rfl
  | append_singleton l p ih =>
      obtain ⟨hl, -, hlast⟩ := List.pairwise_append.mp h
      rw [List.foldl_append, List.foldl_cons, List.foldl_nil, ih hl]
      exact insertOrAssign_of_gt p.2 fun q hq => hlast q hq p (List.mem_singleton.mpr rfl)

/-! ## Lookup -/

/-- `m.find(k)`. -/
def findKey (k : κ) (l : List (κ × ν)) : Option ν := (l.find? fun p => p.1 = k).map Prod.snd

@[simp] theorem findKey_nil (k : κ) : findKey k ([] : List (κ × ν)) = none := rfl

theorem findKey_cons (k a : κ) (y : ν) (l : List (κ × ν)) :
    findKey k ((a, y) :: l) = if a = k then some y else findKey k l := by
  unfold findKey
  by_cases h : a = k <;> simp [h]

/-- Assignment changes the value of one key. -/
theorem mem_of_findKey {k : κ} {x : ν} {l : List (κ × ν)} (h : findKey k l = some x) :
    (k, x) ∈ l := by
  cases Option.map_eq_some_iff.mp h with
  | intro p hp =>
      have hkey : p.1 = k := by simpa using List.find?_some hp.1
      have hmem := List.mem_of_find?_eq_some hp.1
      rwa [← hkey, ← hp.2]

theorem findKey_insertOrAssign (k k' : κ) (x : ν) (l : List (κ × ν)) :
    findKey k' (insertOrAssign k x l) = if k = k' then some x else findKey k' l := by
  induction l with
  | nil => rw [insertOrAssign, findKey_cons]
  | cons p l ih =>
      cases p with
      | mk a y =>
          unfold insertOrAssign
          by_cases hlt : k < a
          · rw [if_pos hlt, findKey_cons]
          by_cases heq : k = a
          · rw [if_neg hlt, if_pos heq, findKey_cons, findKey_cons, heq]
            by_cases ha : a = k'
            · rw [if_pos ha, if_pos ha]
            · rw [if_neg ha, if_neg ha, if_neg ha]
          · rw [if_neg hlt, if_neg heq, findKey_cons, findKey_cons, ih]
            by_cases ha : a = k'
            · rw [if_pos ha, if_pos ha, if_neg (ha ▸ heq)]
            · rw [if_neg ha, if_neg ha]

theorem findKey_eq_none {k : κ} {l : List (κ × ν)} (h : ∀ p ∈ l, k < p.1) : findKey k l = none := by
  rw [findKey, Option.map_eq_none_iff, List.find?_eq_none]
  intro p hp heq
  exact (h p hp).ne' (of_decide_eq_true heq)

/-- Sorted pairs are determined by their lookups. -/
theorem KeysSorted.eq_of_findKey {l l' : List (κ × ν)} (hl : KeysSorted l) (hl' : KeysSorted l')
    (h : ∀ k, findKey k l = findKey k l') : l = l' := by
  induction l generalizing l' with
  | nil =>
      cases l' with
      | nil => rfl
      | cons q l' =>
          have hq := h q.1
          rw [findKey_nil, findKey_cons, if_pos rfl] at hq
          cases hq
  | cons p l ih =>
      cases l' with
      | nil =>
          have hp := h p.1
          rw [findKey_nil, findKey_cons, if_pos rfl] at hp
          cases hp
      | cons q l' =>
          have hpl := List.pairwise_cons.mp hl
          have hql := List.pairwise_cons.mp hl'
          have hkey : p.1 = q.1 := by
            rcases lt_trichotomy p.1 q.1 with hlt | heq | hgt
            · have hnone : findKey p.1 (q :: l') = none :=
                findKey_eq_none (List.forall_mem_cons.mpr ⟨hlt, fun r hr => hlt.trans (hql.1 r hr)⟩)
              have hp := h p.1
              rw [hnone, findKey_cons, if_pos rfl] at hp
              cases hp
            · exact heq
            · have hnone : findKey q.1 (p :: l) = none :=
                findKey_eq_none (List.forall_mem_cons.mpr ⟨hgt, fun r hr => hgt.trans (hpl.1 r hr)⟩)
              have hq := h q.1
              rw [hnone, findKey_cons, if_pos rfl] at hq
              cases hq
          have hvalue : p.2 = q.2 := by
            have hp := h p.1
            rw [findKey_cons, if_pos rfl, findKey_cons, if_pos hkey.symm] at hp
            exact Option.some.inj hp
          have hrest : l = l' := by
            apply ih hpl.2 hql.2
            intro k
            by_cases hk : p.1 = k
            · rw [findKey_eq_none fun r hr => hk ▸ hpl.1 r hr,
                findKey_eq_none fun r hr => hk ▸ hkey ▸ hql.1 r hr]
            · have hfind := h k
              rwa [findKey_cons, findKey_cons, if_neg hk,
                if_neg fun hq => hk (hkey.trans hq)] at hfind
          rw [hrest, Prod.ext hkey hvalue]

/-! ## Maps -/

/-- A `std::map`. -/
@[ext]
structure SortedMap (κ : Type u) (ν : Type v) [LinearOrder κ] where
  pairs : List (κ × ν)
  sorted : KeysSorted pairs

namespace SortedMap

def empty : SortedMap κ ν := ⟨[], List.Pairwise.nil⟩

/-- `m[k] = x`. -/
def set (m : SortedMap κ ν) (k : κ) (x : ν) : SortedMap κ ν :=
  ⟨insertOrAssign k x m.pairs, m.sorted.insertOrAssign k x⟩

def find (m : SortedMap κ ν) (k : κ) : Option ν := findKey k m.pairs

theorem find_set (m : SortedMap κ ν) (k k' : κ) (x : ν) :
    (m.set k x).find k' = if k = k' then some x else m.find k' :=
  findKey_insertOrAssign k k' x m.pairs

/-- `m.erase(k)`. -/
def erase (m : SortedMap κ ν) (k : κ) : SortedMap κ ν :=
  ⟨m.pairs.filter fun p => p.1 ≠ k, List.Pairwise.filter _ m.sorted⟩

theorem find_erase (m : SortedMap κ ν) (k k' : κ) :
    (m.erase k).find k' = if k = k' then none else m.find k' := by
  unfold find findKey erase
  rw [List.find?_filter]
  by_cases hk : k = k'
  · rw [if_pos hk, Option.map_eq_none_iff, List.find?_eq_none]
    intro p _
    simp [hk]
  · rw [if_neg hk]
    apply congrArg
    apply List.find?_congr
    intro p _
    by_cases hp : p.1 = k'
    · simp [hp, Ne.symm hk]
    · simp [hp]

theorem ext_find {m m' : SortedMap κ ν} (h : ∀ k, m.find k = m'.find k) : m = m' :=
  SortedMap.ext (m.sorted.eq_of_findKey m'.sorted h)

/-- After many assignments a key has the value of the last one. -/
theorem find_foldl_set (l : List (κ × ν)) (m : SortedMap κ ν) (k : κ) :
    (l.foldl (fun m p => m.set p.1 p.2) m).find k =
      ((l.reverse.find? fun p => p.1 = k).map Prod.snd).or (m.find k) := by
  induction l using List.reverseRecOn with
  | nil => rfl
  | append_singleton l p ih =>
      rw [List.foldl_append, List.foldl_cons, List.foldl_nil, find_set, ih, List.reverse_append,
        List.reverse_singleton, List.singleton_append, List.find?_cons]
      by_cases hp : p.1 = k <;> simp [hp]

/-- After assignments to different keys each one has its value. -/
theorem find_foldl_set_of_mem {l : List (κ × ν)} (hkeys : (l.map Prod.fst).Nodup) {p : κ × ν}
    (hp : p ∈ l) (m : SortedMap κ ν) :
    (l.foldl (fun m p => m.set p.1 p.2) m).find p.1 = some p.2 := by
  rw [find_foldl_set]
  cases hfound : l.reverse.find? fun q => q.1 = p.1 with
  | none =>
      have hnone := List.find?_eq_none.mp hfound p (List.mem_reverse.mpr hp)
      exact absurd (decide_eq_true rfl) hnone
  | some q =>
      have hkey : q.1 = p.1 := by simpa using List.find?_some hfound
      have hmem := List.mem_reverse.mp (List.mem_of_find?_eq_some hfound)
      rw [List.inj_on_of_nodup_map hkeys hmem hp hkey]
      rfl

theorem pairs_foldl_set (l : List (κ × ν)) (m : SortedMap κ ν) :
    (l.foldl (fun m p => m.set p.1 p.2) m).pairs =
      l.foldl (fun m p => insertOrAssign p.1 p.2 m) m.pairs := by
  induction l generalizing m with
  | nil => rfl
  | cons p l ih => exact ih (m.set p.1 p.2)

/-- Setting the pairs of a map in order gives the map back. -/
theorem foldl_set (m : SortedMap κ ν) :
    m.pairs.foldl (fun m p => m.set p.1 p.2) empty = m := by
  apply SortedMap.ext
  rw [pairs_foldl_set]
  exact foldl_insertOrAssign m.sorted

end SortedMap

end CommonCc
