import Mathlib.Data.List.Basic
import Mathlib.Logic.Function.Basic
import Mathlib.Tactic.Common

/-!
# Named files

A directory as a map from names to contents, and a numbered row of files that moves up by
one place through a chain of renames.
-/

namespace CommonCc

universe u v

/-! ## Pieces counted from the newest -/

section Joined

variable {α : Type v}

/-- The pieces `n - 1`, ..., `1`, `0` one after the other. -/
def joined (s : Nat → List α) : Nat → List α
  | 0 => []
  | n + 1 => s n ++ joined s n

theorem joined_congr {s t : Nat → List α} {n : Nat} (h : ∀ i < n, s i = t i) :
    joined s n = joined t n := by
  induction n with
  | zero => rfl
  | succ n ih =>
      rw [joined, joined, h n (Nat.lt_succ_self n), ih fun i hi => h i (Nat.lt_succ_of_lt hi)]

/-- The newest piece stands last. -/
theorem joined_succ (s : Nat → List α) (n : Nat) :
    joined s (n + 1) = joined (fun i => s (i + 1)) n ++ s 0 := by
  induction n with
  | zero => simp [joined]
  | succ n ih => rw [joined, ih, joined, List.append_assoc]

theorem joined_suffix (s : Nat → List α) {m n : Nat} (h : m ≤ n) :
    joined s m <:+ joined s n := by
  induction h with
  | refl => exact List.suffix_rfl
  | step _ ih => exact ih.trans (List.suffix_append _ _)

theorem joined_of_nil {s : Nat → List α} {m n : Nat} (h : m ≤ n) (hs : ∀ i, m ≤ i → s i = []) :
    joined s n = joined s m := by
  induction h with
  | refl => rfl
  | step hn ih => rw [joined, hs _ hn, List.nil_append, ih]

/-- Leaving out old pieces, all of a length divisible by `d`, drops a multiple of `d`. -/
theorem joined_eq_drop {s : Nat → List α} {m n d : Nat} (h : m ≤ n)
    (hs : ∀ i, m ≤ i → d ∣ (s i).length) : ∃ k, joined s m = (joined s n).drop (d * k) := by
  induction h with
  | refl => exact ⟨0, rfl⟩
  | @step n hn ih =>
      cases ih with
      | intro k hk =>
          cases hs n hn with
          | intro l hl =>
              have hlen : d * (l + k) = (s n).length + d * k := by rw [hl, Nat.mul_add]
              exists l + k
              rw [joined, hlen, List.drop_length_add_append, hk]

/-- A row whose pieces above `g` have moved up by one, with nothing at `g` itself, joins to
the same as the row that has moved as a whole and starts with nothing. -/
theorem joined_gap {c s : Nat → List α} {g n : Nat} (hg : g < n) (h₀ : s 0 = [])
    (h : ∀ i < n, c i = if g < i then s i else if i = g then [] else s (i + 1)) :
    joined c n = joined s n := by
  induction hg with
  | refl =>
      have hlow : joined c g = joined (fun i => s (i + 1)) g := by
        apply joined_congr
        intro i hi
        rw [h i (Nat.lt_succ_of_lt hi), if_neg (by omega), if_neg (by omega)]
      have hgap : c g = [] := by
        rw [h g (Nat.lt_succ_self g), if_neg (Nat.lt_irrefl g), if_pos rfl]
      rw [joined_succ s g, h₀, List.append_nil, joined, hgap, List.nil_append, hlow]
  | @step n hn ih =>
      have htop : c n = s n := by
        rw [h n (Nat.lt_succ_self n), if_pos (Nat.lt_of_succ_le hn)]
      rw [joined, joined, htop, ih fun i hi => h i (Nat.lt_succ_of_lt hi)]

end Joined

/-! ## Directories -/

section Files

variable {ν : Type u} {α : Type v}

/-- What each name holds, if it exists.  A file is the list of what was appended to it. -/
abbrev Files (ν : Type u) (α : Type v) := ν → Option (List α)

namespace Files

/-- The content of a file; a missing file has none. -/
def content (fs : Files ν α) (name : ν) : List α := (fs name).getD []

variable [DecidableEq ν]

/-- Open a file for appending, and create it if it is missing. -/
def openAppend (fs : Files ν α) (name : ν) : Files ν α :=
  Function.update fs name (some (fs.content name))

/-- Append to a file that exists. -/
def append (fs : Files ν α) (name : ν) (a : α) : Files ν α :=
  match fs name with
  | none => fs
  | some f => Function.update fs name (some (f ++ [a]))

/-- Give a file another name, over whatever had it; a missing file has no effect. -/
def rename (fs : Files ν α) (source target : ν) : Files ν α :=
  match fs source with
  | none => fs
  | some f => Function.update (Function.update fs source none) target (some f)

def remove (fs : Files ν α) (name : ν) : Files ν α := Function.update fs name none

theorem append_eq {fs : Files ν α} {name : ν} {f : List α} (h : fs name = some f) (a : α) :
    fs.append name a = Function.update fs name (some (f ++ [a])) := by
  unfold append
  rw [h]

theorem rename_self (fs : Files ν α) (name : ν) : fs.rename name name = fs := by
  unfold rename
  cases h : fs name with
  | none => rfl
  | some f =>
      dsimp only
      rw [Function.update_idem, ← h, Function.update_eq_self]

/-- When a missing source comes with a missing target, a rename moves what there is. -/
theorem rename_apply {fs : Files ν α} {source target : ν}
    (h : fs source = none → fs target = none) (name : ν) :
    fs.rename source target name =
      if name = target then fs source else if name = source then none else fs name := by
  unfold rename
  cases hs : fs source with
  | none =>
      dsimp only
      split
      · next ht => rw [ht, h hs]
      · split
        · next hsrc => rw [hsrc, hs]
        · rfl
  | some f =>
      dsimp only
      rw [Function.update_apply, Function.update_apply]

/-! ### A file that is moved away and started anew -/

theorem append_of_none {fs : Files ν α} {name : ν} (h : fs name = none) (a : α) :
    fs.append name a = fs := by
  unfold append
  rw [h]

/-- Two items in a row. -/
theorem append_append {fs : Files ν α} {name : ν} {f : List α} (h : fs name = some f) (a b : α) :
    (fs.append name a).append name b = Function.update fs name (some (f ++ [a, b])) := by
  rw [append_eq h, append_eq (Function.update_self ..), Function.update_idem, List.append_assoc]
  rfl

/-- The file moves to `target`, the file `old` goes, and two items start the file anew. -/
def turn (fs : Files ν α) (name target old : ν) (a b : α) : Files ν α :=
  ((((fs.rename name target).openAppend name).remove old).append name a).append name b

theorem turn_apply {fs : Files ν α} {name target old : ν} {f : List α} (h : fs name = some f)
    (htarget : target ≠ name) (hold : old ≠ name) (a b : α) (n : ν) :
    fs.turn name target old a b n =
      if n = name then some [a, b]
      else if n = old then none
      else if n = target then some f
      else fs n := by
  have hrename : fs.rename name target =
      Function.update (Function.update fs name none) target (some f) := by
    unfold rename
    rw [h]
  have hopened : ((fs.rename name target).openAppend name).remove old name = some [] := by
    rw [remove, Function.update_of_ne hold.symm, openAppend, Function.update_self, content, hrename,
      Function.update_of_ne htarget.symm, Function.update_self]
    rfl
  rw [turn, append_append hopened, List.nil_append, Function.update_apply]
  split
  · rfl
  · next hn =>
      rw [remove, Function.update_apply]
      split
      · rfl
      · rw [openAppend, Function.update_of_ne hn, hrename, Function.update_apply]
        split
        · rfl
        · rw [Function.update_of_ne hn]

/-- When all three names are one the file goes and nothing is written. -/
theorem turn_self (fs : Files ν α) (name : ν) (a b : α) :
    fs.turn name name name a b = Function.update fs name none := by
  have hnone : ((fs.rename name name).openAppend name).remove name =
      Function.update fs name none := by
    rw [rename_self, remove, openAppend, Function.update_idem]
  have hgone : Function.update fs name none name = none := Function.update_self ..
  rw [turn, hnone, append_of_none hgone, append_of_none hgone]

/-! ### Other items -/

/-- The directory with `f` applied to what was appended. -/
def map {β : Type v} (f : α → β) (fs : Files ν α) : Files ν β := fun name => (fs name).map (List.map f)

section Map

variable {β : Type v} (f : α → β) (fs : Files ν α)

theorem map_update (name : ν) (x : Option (List α)) :
    Files.map f (Function.update fs name x) =
      Function.update (Files.map f fs) name (x.map (List.map f)) := by
  funext n
  unfold Files.map
  rw [Function.update_apply, Function.update_apply]
  split
  · rfl
  · rfl

theorem map_openAppend (name : ν) :
    Files.map f (fs.openAppend name) = (Files.map f fs).openAppend name := by
  unfold openAppend
  rw [map_update]
  congr 1
  unfold content Files.map
  cases fs name <;> rfl

theorem map_append (name : ν) (a : α) :
    Files.map f (fs.append name a) = (Files.map f fs).append name (f a) := by
  unfold append
  cases h : fs name with
  | none =>
      have hnone : Files.map f fs name = none := by rw [Files.map, h]; rfl
      rw [hnone]
  | some l =>
      have hsome : Files.map f fs name = some (l.map f) := by rw [Files.map, h]; rfl
      rw [hsome, map_update, Option.map_some, List.map_append]
      rfl

theorem map_rename (source target : ν) :
    Files.map f (fs.rename source target) = (Files.map f fs).rename source target := by
  unfold rename
  cases h : fs source with
  | none =>
      have hnone : Files.map f fs source = none := by rw [Files.map, h]; rfl
      rw [hnone]
  | some l =>
      have hsome : Files.map f fs source = some (l.map f) := by rw [Files.map, h]; rfl
      rw [hsome, map_update, map_update]
      rfl

theorem map_remove (name : ν) :
    Files.map f (fs.remove name) = (Files.map f fs).remove name := map_update f fs name none

end Map

/-! ### A row of files -/

/-- The files `0` to `n - 1` of a row are as `old` says. -/
def Row (name : Nat → ν) (old : Nat → Option (List α)) (n : Nat) (fs : Files ν α) : Prop :=
  ∀ i < n, fs (name i) = old i

/-- The same, with the files below the gap `g` still one place behind. -/
def Gap (name : Nat → ν) (old : Nat → Option (List α)) (n g : Nat) (fs : Files ν α) : Prop :=
  ∀ i < n, fs (name i) = if g < i then old i else if i = g then none else old (i + 1)

variable {name : Nat → ν} {old : Nat → Option (List α)} {n g : Nat} {fs : Files ν α}

/-- The first rename of the chain writes over the last file of the row. -/
theorem Row.rename_top (h : Row name (fun i => old (i + 1)) (n + 2) fs)
    (hinj : ∀ i < n + 2, ∀ j < n + 2, name i = name j → i = j)
    (hold : old (n + 1) = none → old (n + 2) = none) :
    Gap name old (n + 2) n (fs.rename (name n) (name (n + 1))) := by
  have hsource : fs (name n) = old (n + 1) := h n (by omega)
  have htarget : fs (name (n + 1)) = old (n + 2) := h (n + 1) (by omega)
  have hne : name n ≠ name (n + 1) := fun he => by
    have := hinj n (by omega) (n + 1) (by omega) he
    omega
  intro i hi
  rw [rename_apply (by rw [hsource, htarget]; exact hold)]
  by_cases htop : i = n + 1
  · rw [if_pos (by rw [htop]), if_pos (by omega), hsource, htop]
  · rw [if_neg fun he => htop (hinj i hi (n + 1) (by omega) he)]
    by_cases hgap : i = n
    · rw [if_pos (by rw [hgap]), if_neg (by omega), if_pos hgap]
    · rw [if_neg fun he => hgap (hinj i hi n (by omega) he), if_neg (by omega), if_neg hgap]
      exact h i hi

/-- Each further rename moves the gap down. -/
theorem Gap.rename (h : Gap name old n (g + 1) fs) (hg : g + 1 < n)
    (hinj : ∀ i < n, ∀ j < n, name i = name j → i = j) :
    Gap name old n g (fs.rename (name g) (name (g + 1))) := by
  have hsource : fs (name g) = old (g + 1) := by
    rw [h g (by omega), if_neg (by omega), if_neg (by omega)]
  have htarget : fs (name (g + 1)) = none := by
    rw [h (g + 1) hg, if_neg (by omega), if_pos rfl]
  have hne : name g ≠ name (g + 1) := fun he => by
    have := hinj g (by omega) (g + 1) hg he
    omega
  intro i hi
  rw [rename_apply fun _ => htarget]
  by_cases htop : i = g + 1
  · rw [if_pos (by rw [htop]), if_pos (by omega), hsource, htop]
  · rw [if_neg fun he => htop (hinj i hi (g + 1) hg he)]
    by_cases hgap : i = g
    · rw [if_pos (by rw [hgap]), if_neg (by omega), if_pos hgap]
    · rw [if_neg fun he => hgap (hinj i hi g (by omega) he), h i hi]
      by_cases hlow : g < i
      · rw [if_pos (by omega), if_pos hlow]
      · rw [if_neg (by omega), if_neg (by omega), if_neg hlow, if_neg hgap]

/-- Creating file `0` closes the gap there. -/
theorem Gap.openAppend (h : Gap name old n 0 fs) (hold : old 0 = some [])
    (hinj : ∀ i < n, ∀ j < n, name i = name j → i = j) :
    Row name old n (fs.openAppend (name 0)) := by
  intro i hi
  unfold Files.openAppend content
  rw [Function.update_apply]
  by_cases hzero : i = 0
  · rw [if_pos (by rw [hzero]), h 0 (by omega), if_neg (Nat.lt_irrefl 0), if_pos rfl, hzero, hold]
    rfl
  · rw [if_neg fun he => hzero (hinj i hi 0 (by omega) he), h i hi, if_pos (by omega)]

end Files

end Files

end CommonCc
