import Mathlib.Algebra.Order.Ring.Nat
import Mathlib.Data.List.Lex
import Mathlib.Data.List.TakeWhile
import Mathlib.Order.Lattice
import Mathlib.Tactic.Common

/-!
# Machine values

Byte strings and the fixed-width integers of the source.  A `uint32_t` is its
value, and the arithmetic that may wrap goes through `u32`.  The host is
little-endian, as `memcpy` of an integer shows.
-/

namespace CommonCc

abbrev Bytes := List UInt8

/-- Byte strings compare as `memcmp` does, by unsigned bytes. -/
instance uint8LinearOrder : LinearOrder UInt8 where
  le_refl := UInt8.le_refl
  le_trans _ _ _ := UInt8.le_trans
  le_antisymm _ _ := UInt8.le_antisymm
  le_total := UInt8.le_total
  lt_iff_le_not_ge a b := by
    simp only [UInt8.le_iff_toNat_le, UInt8.lt_iff_toNat_lt]
    omega
  toDecidableLE := inferInstance
  toDecidableLT := inferInstance
  toDecidableEq := inferInstance

instance uint8LawfulBEq : LawfulBEq UInt8 := inferInstance

/-- Why a call has no result: a failed `assert`, an access outside an object, or
a loop that never ends. -/
inductive Fault where
  | assertion
  | outOfBounds
  | diverges
deriving Repr, DecidableEq

/-- An access that is refused faults. -/
def checked {α : Type} : Option α → Except Fault α
  | none => .error .outOfBounds
  | some a => .ok a

@[simp] theorem checked_some {α : Type} (a : α) : checked (some a) = .ok a := rfl

theorem checked_eq_ok {α : Type} {o : Option α} {a : α} : checked o = .ok a ↔ o = some a := by
  cases o <;> simp [checked]

/-- Two computations in a row have a result when the first one gives the second one its
argument. -/
theorem bind_eq_ok {ε α β : Type} {x : Except ε α} {f : α → Except ε β} {b : β} :
    (x >>= f) = .ok b ↔ ∃ a, x = .ok a ∧ f a = .ok b := by
  cases x with
  | error e => simp [bind, Except.bind]
  | ok a => simp [bind, Except.bind]

theorem map_eq_ok {ε α β : Type} {x : Except ε α} {f : α → β} {b : β} :
    x.map f = .ok b ↔ ∃ a, x = .ok a ∧ f a = b := by
  cases x with
  | error e => simp [Except.map]
  | ok a => simp [Except.map]

/-- Conversion to `uint32_t`. -/
def u32 (n : Nat) : Nat := n % 4294967296

/-- Subtraction of `uint32_t` values. -/
def u32Sub (a b : Nat) : Nat := (a + 4294967296 - b) % 4294967296

/-- Conversion to `uint64_t`. -/
def u64 (n : Nat) : Nat := n % 18446744073709551616

/-- Subtraction of `size_t` values. -/
def u64Sub (a b : Nat) : Nat := (a + 18446744073709551616 - b) % 18446744073709551616

theorem u32_of_lt {n : Nat} (h : n < 4294967296) : u32 n = n := Nat.mod_eq_of_lt h

theorem u32Sub_of_le {a b : Nat} (h : b ≤ a) (ha : a < 4294967296) : u32Sub a b = a - b := by
  unfold u32Sub
  omega

theorem u64Sub_of_le {a b : Nat} (h : b ≤ a) (ha : a < 18446744073709551616) :
    u64Sub a b = a - b := by
  unfold u64Sub
  omega

/-- Conversion to `int`. -/
def toInt (z : Int) : Int := (z + 2147483648) % 4294967296 - 2147483648

theorem toInt_of_mem {z : Int} (h : -2147483648 ≤ z) (h' : z < 2147483648) : toInt z = z := by
  unfold toInt
  omega

theorem toInt_range (z : Int) : -2147483648 ≤ toInt z ∧ toInt z < 2147483648 := by
  unfold toInt
  omega

/-- Conversion to `int64_t`. -/
def toLong (z : Int) : Int := (z + 9223372036854775808) % 18446744073709551616 - 9223372036854775808

/-- The values of an `int64_t`. -/
def InLong (z : Int) : Prop := -9223372036854775808 ≤ z ∧ z < 9223372036854775808

instance : DecidablePred InLong := fun z => by
  unfold InLong
  infer_instance

theorem toLong_of_mem {z : Int} (h : InLong z) : toLong z = z := by
  unfold InLong at h
  unfold toLong
  omega

/-- The four bytes of a `uint32_t` in memory. -/
def u32Bytes (n : Nat) : Bytes :=
  [n.toUInt8, (n / 256).toUInt8, (n / 65536).toUInt8, (n / 16777216).toUInt8]

/-- The value of an unsigned integer in memory. -/
def leValue : Bytes → Nat
  | [] => 0
  | b :: bs => b.toNat + 256 * leValue bs

@[simp] theorem u32Bytes_length (n : Nat) : (u32Bytes n).length = 4 := rfl

theorem leValue_lt (bs : Bytes) : leValue bs < 256 ^ bs.length := by
  induction bs with
  | nil => simp [leValue]
  | cons b bs ih =>
      have hb := b.toNat_lt
      rw [leValue, List.length_cons, Nat.pow_succ]
      omega

theorem leValue_u32Bytes {n : Nat} (h : n < 4294967296) : leValue (u32Bytes n) = n := by
  simp only [u32Bytes, leValue, UInt8.toNat_ofNat', Nat.toUInt8_eq]
  omega

theorem u32Bytes_leValue {bs : Bytes} (h : bs.length = 4) : u32Bytes (leValue bs) = bs := by
  match bs, h with
  | [a, b, c, d], _ =>
      have ha := a.toNat_lt
      have hb := b.toNat_lt
      have hc := c.toNat_lt
      have hd := d.toNat_lt
      simp only [u32Bytes, leValue, Nat.toUInt8_eq, List.cons.injEq, and_true]
      refine ⟨?_, ?_, ?_, ?_⟩ <;> apply UInt8.toNat_inj.mp <;>
        simp only [UInt8.toNat_ofNat'] <;> omega

/-! ## Clock -/

/-- `struct timeval`. -/
structure TimeVal where
  tv_sec : Int
  tv_usec : Int
deriving Repr, DecidableEq

/-- The reading in microseconds. -/
def TimeVal.micros (t : TimeVal) : Int := t.tv_sec * 1000000 + t.tv_usec

/-! ## Characters -/

/-- The bytes of a string literal. -/
def ascii (s : List Char) : Bytes := s.map fun c => c.toNat.toUInt8

def isDigit (c : UInt8) : Bool := 48 ≤ c && c ≤ 57

def isSpace (c : UInt8) : Bool := c = 32 || (9 ≤ c && c ≤ 13)

/-- The value of a run of decimal digits. -/
def digitsValue (ds : Bytes) : Nat := ds.foldl (fun n d => n * 10 + (d.toNat - 48)) 0

/-- `strtol` in base ten, which stays within the range of `long`. -/
def strtol (s : Bytes) : Int :=
  match s.dropWhile isSpace with
  | [] => 0
  | c :: rest =>
      if c = 45 then max (-(digitsValue (rest.takeWhile isDigit) : Int)) (-9223372036854775808)
      else
        let digits := if c = 43 then rest else c :: rest
        min (digitsValue (digits.takeWhile isDigit) : Int) 9223372036854775807

/-- `atoi` is `strtol` converted to `int`. -/
def atoi (s : Bytes) : Int := toInt (strtol s)

theorem atoi_range (s : Bytes) : -2147483648 ≤ atoi s ∧ atoi s < 2147483648 := toInt_range _

/-! ## Decimal numbers -/

/-- The decimal digits of a number. -/
def decimal (n : Nat) : Bytes :=
  if n < 10 then [(48 + n).toUInt8] else decimal (n / 10) ++ [(48 + n % 10).toUInt8]

/-- `%ld` of `printf`. -/
def printLong (z : Int) : Bytes := if z < 0 then 45 :: decimal z.natAbs else decimal z.natAbs

theorem digit_toNat {d : Nat} (h : d < 10) : ((48 + d).toUInt8).toNat = 48 + d := by
  simp only [Nat.toUInt8_eq, UInt8.toNat_ofNat']
  omega

theorem isDigit_digit {d : Nat} (h : d < 10) : isDigit (48 + d).toUInt8 = true := by
  have hd := digit_toNat h
  simp only [isDigit, Bool.and_eq_true, decide_eq_true_eq, UInt8.le_iff_toNat_le, hd]
  exact ⟨Nat.le_add_right _ _, by simp; omega⟩

theorem isDigit_of_mem_decimal {n : Nat} {c : UInt8} (h : c ∈ decimal n) : isDigit c = true := by
  induction n using decimal.induct with
  | case1 n hn =>
      rw [decimal, if_pos hn] at h
      obtain rfl := List.mem_singleton.mp h
      exact isDigit_digit hn
  | case2 n hn ih =>
      rw [decimal, if_neg hn] at h
      rcases List.mem_append.mp h with h | h
      · exact ih h
      · obtain rfl := List.mem_singleton.mp h
        exact isDigit_digit (Nat.mod_lt n (by decide))

theorem decimal_ne_nil (n : Nat) : decimal n ≠ [] := by
  rw [decimal]
  split <;> simp

theorem digitsValue_decimal (n : Nat) : digitsValue (decimal n) = n := by
  induction n using decimal.induct with
  | case1 n hn =>
      rw [decimal, if_pos hn]
      simp only [digitsValue, List.foldl_cons, List.foldl_nil, digit_toNat hn]
      omega
  | case2 n hn ih =>
      have hd := digit_toNat (Nat.mod_lt n (by decide : 10 > 0))
      rw [decimal, if_neg hn, digitsValue, List.foldl_append, List.foldl_cons, List.foldl_nil,
        ← digitsValue, ih, hd]
      omega

/-- A digit is neither a space nor a sign. -/
theorem plain_of_isDigit {c : UInt8} (h : isDigit c = true) :
    isSpace c = false ∧ c ≠ 45 ∧ c ≠ 43 := by
  simp only [isDigit, Bool.and_eq_true, decide_eq_true_eq, UInt8.le_iff_toNat_le] at h
  refine ⟨?_, ?_, ?_⟩
  · simp only [isSpace, Bool.or_eq_false_iff, Bool.and_eq_false_iff, decide_eq_false_iff_not,
      UInt8.le_iff_toNat_le]
    refine ⟨?_, .inr ?_⟩
    · rintro rfl
      simp at h
    · simp at h ⊢
      omega
  · rintro rfl
    simp at h
  · rintro rfl
    simp at h

/-- A number within the range of `long` is read back. -/
theorem strtol_printLong {z : Int} (h : -9223372036854775808 ≤ z) (h' : z < 9223372036854775808) :
    strtol (printLong z) = z := by
  have hall : (decimal z.natAbs).takeWhile isDigit = decimal z.natAbs :=
    List.takeWhile_eq_self_iff.mpr fun c hc => isDigit_of_mem_decimal hc
  have hvalue := digitsValue_decimal z.natAbs
  unfold printLong
  split
  · have hspace : isSpace 45 = false := by decide
    rw [strtol, List.dropWhile_cons_of_neg (by simp [hspace])]
    simp only [if_true, hall, hvalue]
    omega
  · obtain ⟨c, rest, hc⟩ := List.exists_cons_of_ne_nil (decimal_ne_nil z.natAbs)
    have hdigit : isDigit c = true :=
      isDigit_of_mem_decimal (n := z.natAbs) (by simp [hc])
    obtain ⟨hspace, hminus, hplus⟩ := plain_of_isDigit hdigit
    rw [hc] at hall hvalue ⊢
    rw [strtol, List.dropWhile_cons_of_neg (by simp [hspace])]
    simp only [hminus, hplus, if_false, hall, hvalue]
    omega

theorem atoi_printLong {z : Int} (h : -2147483648 ≤ z) (h' : z < 2147483648) :
    atoi (printLong z) = z := by
  rw [atoi, strtol_printLong (by omega) (by omega), toInt_of_mem h h']

end CommonCc
