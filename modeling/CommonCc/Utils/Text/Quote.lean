import CommonCc.Base
import CommonCc.Lib.Memory

/-!
# Quoted texts

`StringUtility::QuoteWild`.  The text is written to an array of twice its length, which leaves no
cell for the NUL behind a text whose characters are all quoted.
-/

namespace CommonCc

namespace StringUtility

/-- What is written for one character, where the other control characters become blanks. -/
def quoteChar (c : UInt8) : Bytes :=
  if c = 10 then [92, 110]
  else if c = 9 then [92, 116]
  else if c = 13 then [92, 114]
  else if c = 8 then [92, 98]
  else if c = 39 then [92, 39]
  else if c = 34 then [92, 34]
  else if c = 92 then [92, 92]
  else if 32 ≤ c then [c]
  else [32]

/-- `pcDest[j] = c`. -/
def putAt (pcDest : Memory UInt8) (j : Int) (c : UInt8) : Except Fault (Memory UInt8) :=
  if 0 ≤ j then checked (pcDest.store j.toNat [c]) else .error .outOfBounds

/-- `pcDest[j++] = c`, where `j` is an `int`. -/
def put : Memory UInt8 × Int → UInt8 → Except Fault (Memory UInt8 × Int)
  | (pcDest, j), c => do
      let pcDest ← putAt pcDest j c
      return (pcDest, toInt (j + 1))

/-- The loop over the text up to its NUL.  `i` is an `int` as well, and never passes `j`. -/
def quoteLoop (text : Bytes) (s : Memory UInt8 × Int) : Except Fault (Memory UInt8 × Int) :=
  text.foldlM (fun s c => (quoteChar c).foldlM put s) s

/-- The text in the cells of `pcDest` up to the first NUL. -/
def assigned (pcDest : Memory UInt8) : Bytes := (pcDest.read 0 pcDest.size).takeWhile (· ≠ 0)

/-- `raw` is what the new array holds. -/
def QuoteWild (raw : Nat → UInt8) (strRaw : Bytes) : Except Fault Bytes :=
  if strRaw = [] then .ok []
  else do
    let (pcDest, j) ← quoteLoop (strRaw.takeWhile (· ≠ 0)) (⟨2 * strRaw.length, raw⟩, 0)
    let pcDest ← putAt pcDest j 0
    return assigned pcDest

/-! ## What is written -/

theorem quoteLoop_eq (text : Bytes) (s : Memory UInt8 × Int) :
    quoteLoop text s = (text.flatMap quoteChar).foldlM put s := by
  induction text generalizing s with
  | nil => rfl
  | cons c text ih =>
      rw [List.flatMap_cons, List.foldlM_append, quoteLoop, List.foldlM_cons]
      congr 1
      funext s'
      exact ih s'

theorem putAt_nat (pcDest : Memory UInt8) (j : Nat) (c : UInt8) :
    putAt pcDest j c = if j < pcDest.size then .ok (pcDest.write j [c]) else .error .outOfBounds := by
  rw [putAt, if_pos (Int.natCast_nonneg j), Int.toNat_natCast, Memory.store]
  by_cases hj : j < pcDest.size
  · rw [if_pos hj, if_pos (by exact hj)]
    rfl
  · rw [if_neg hj, if_neg (by exact hj)]
    rfl

/-- The bytes and the NUL behind them. -/
def putText (bs : Bytes) (s : Memory UInt8 × Int) : Except Fault (Memory UInt8) := do
  let (pcDest, j) ← bs.foldlM put s
  putAt pcDest j 0

theorem putText_cons (c : UInt8) (bs : Bytes) (s : Memory UInt8 × Int) :
    putText (c :: bs) s = put s c >>= putText bs := by
  rw [putText, List.foldlM_cons, bind_assoc]
  rfl

theorem put_nat (pcDest : Memory UInt8) (j : Nat) (c : UInt8) :
    put (pcDest, j) c =
      if j < pcDest.size then .ok (pcDest.write j [c], toInt (j + 1)) else .error .outOfBounds := by
  rw [put, putAt_nat]
  split
  · rfl
  · rfl

/-- Behind the largest `int` the next byte goes to a negative index. -/
theorem putText_negative (bs : Bytes) (pcDest : Memory UInt8) {j : Int} (hj : j < 0) :
    putText bs (pcDest, j) = .error .outOfBounds := by
  have hput : ∀ c, putAt pcDest j c = .error .outOfBounds := fun c => if_neg (by omega)
  cases bs with
  | nil => exact hput 0
  | cons c bs =>
      rw [putText_cons, put, hput]
      rfl

theorem putText_iff (bs : Bytes) (pcDest m : Memory UInt8) {j : Nat} (hj : j < 2147483648) :
    putText bs (pcDest, j) = .ok m ↔
      (j + bs.length < pcDest.size ∧ j + bs.length < 2147483648) ∧
        pcDest.write j (bs ++ [0]) = m := by
  induction bs generalizing pcDest j with
  | nil =>
      have hnil : putText [] (pcDest, j) = putAt pcDest j 0 := rfl
      rw [hnil, putAt_nat]
      by_cases hsize : j < pcDest.size
      · simp [hsize, hj]
      · simp [hsize]
  | cons c bs ih =>
      rw [putText_cons, put_nat]
      by_cases hsize : j < pcDest.size
      · rw [if_pos hsize]
        have hwrite := Memory.write_append pcDest j [c] (bs ++ [0])
        by_cases hnext : j + 1 < 2147483648
        · have hint : toInt ((j : Int) + 1) = (j + 1 : Nat) := toInt_of_mem (by omega) (by omega)
          have h := ih (pcDest.write j [c]) hnext
          rw [Memory.write_size, ← List.length_singleton (a := c), hwrite] at h
          rw [hint]
          refine h.trans ?_
          rw [List.length_singleton, List.length_cons, Nat.add_assoc, Nat.add_comm 1]
          rfl
        · have hint : toInt ((j : Int) + 1) < 0 := by
            unfold toInt
            omega
          have hneg := putText_negative bs (pcDest.write j [c]) hint
          constructor
          · intro h
            cases hneg.symm.trans h
          · rintro ⟨⟨-, hlen⟩, -⟩
            rw [List.length_cons] at hlen
            omega
      · rw [if_neg hsize]
        constructor
        · intro h
          cases h
        · rintro ⟨⟨hlen, -⟩, -⟩
          omega

/-! ## The length of the quoted text -/

/-- The characters that are written as two. -/
def quoted (c : UInt8) : Bool := c ∈ [10, 9, 13, 8, 39, 34, 92]

theorem quoteChar_length (c : UInt8) : (quoteChar c).length = if quoted c then 2 else 1 := by
  unfold quoteChar quoted
  split_ifs <;> simp_all

theorem quoteChar_ne_zero (c : UInt8) : 0 ∉ quoteChar c := by
  unfold quoteChar
  by_cases hc : 32 ≤ c
  · have hne : c ≠ 0 := by
      rintro rfl
      exact absurd hc (by decide)
    split_ifs
    all_goals simp [Ne.symm hne]
  · split_ifs
    all_goals decide

theorem quoteLength (s : Bytes) : (s.flatMap quoteChar).length = s.length + s.countP quoted := by
  induction s with
  | nil => rfl
  | cons c s ih =>
      rw [List.flatMap_cons, List.length_append, ih, quoteChar_length, List.length_cons,
        List.countP_cons]
      split <;> omega

/-- A character that is not quoted leaves a cell for the NUL. -/
theorem quoteLength_lt_iff (s : Bytes) :
    (s.flatMap quoteChar).length < 2 * s.length ↔ ∃ c ∈ s, quoted c = false := by
  rw [quoteLength]
  have hle := List.countP_le_length (p := quoted) (l := s)
  have hall := List.countP_eq_length (p := quoted) (l := s)
  constructor
  · intro h
    by_contra hnone
    have hsome : s.countP quoted = s.length := by
      rw [hall]
      intro c hc
      by_contra hq
      exact hnone ⟨c, hc, by simpa using hq⟩
    omega
  · rintro ⟨c, hc, hq⟩
    have hne : s.countP quoted ≠ s.length := by
      intro heq
      rw [hall.mp heq c hc] at hq
      cases hq
    omega

/-! ## The array -/

theorem assigned_write {pcDest : Memory UInt8} {bs : Bytes} (hz : 0 ∉ bs)
    (hlen : bs.length < pcDest.size) : assigned (pcDest.write 0 (bs ++ [0])) = bs := by
  have hread := Memory.read_write_self pcDest 0 (bs ++ [0])
  obtain ⟨k, hk⟩ := Nat.exists_eq_add_of_le (m := (bs ++ [0]).length) (n := pcDest.size)
    (by rw [List.length_append, List.length_singleton]; exact hlen)
  have hall : bs.takeWhile (· ≠ 0) = bs := by
    rw [List.takeWhile_eq_self_iff]
    intro c hc
    have hne : c ≠ 0 := fun h => hz (h ▸ hc)
    simpa using hne
  rw [assigned, Memory.write_size, hk, Memory.read_append, hread, List.append_assoc,
    List.takeWhile_append, hall, if_pos rfl]
  exact List.append_nil bs

/-- There is a cell for the NUL, and `j` can be its index. -/
def QuoteFits (strRaw : Bytes) : Prop :=
  (∃ c ∈ strRaw, quoted c = false) ∧ strRaw.length + strRaw.countP quoted < 2147483648

theorem QuoteWild_ok_iff (raw : Nat → UInt8) {strRaw : Bytes} (hne : strRaw ≠ []) (hz : 0 ∉ strRaw)
    (strRet : Bytes) : QuoteWild raw strRaw = .ok strRet ↔
      QuoteFits strRaw ∧ strRaw.flatMap quoteChar = strRet := by
  have hall : strRaw.takeWhile (· ≠ 0) = strRaw := by
    rw [List.takeWhile_eq_self_iff]
    intro c hc
    have hc0 : c ≠ 0 := fun h => hz (h ▸ hc)
    simpa using hc0
  have hput := fun m => putText_iff (strRaw.flatMap quoteChar) ⟨2 * strRaw.length, raw⟩ m
    (j := 0) (by decide)
  have hcall : QuoteWild raw strRaw =
      putText (strRaw.flatMap quoteChar) (⟨2 * strRaw.length, raw⟩, (0 : Nat)) >>=
        fun pcDest => .ok (assigned pcDest) := by
    rw [QuoteWild, if_neg hne, hall, quoteLoop_eq, putText, bind_assoc]
    rfl
  have hzero : 0 ∉ strRaw.flatMap quoteChar := by
    intro hmem
    obtain ⟨c, -, hc⟩ := List.mem_flatMap.mp hmem
    exact quoteChar_ne_zero c hc
  rw [hcall, bind_eq_ok, QuoteFits, ← quoteLength_lt_iff, ← quoteLength]
  simp only [hput, Nat.zero_add]
  constructor
  · rintro ⟨m, ⟨hfits, rfl⟩, hret⟩
    rw [assigned_write hzero hfits.1] at hret
    exact ⟨hfits, Except.ok.inj hret⟩
  · rintro ⟨hfits, rfl⟩
    exact ⟨_, ⟨hfits, rfl⟩, by rw [assigned_write hzero hfits.1]⟩

/-- All writes stay in the array when a character is not quoted. -/
theorem QuoteWild_iff (raw : Nat → UInt8) {strRaw : Bytes} (hne : strRaw ≠ []) (hz : 0 ∉ strRaw) :
    (∃ strRet, QuoteWild raw strRaw = .ok strRet) ↔ QuoteFits strRaw := by
  constructor
  · rintro ⟨strRet, h⟩
    exact ((QuoteWild_ok_iff raw hne hz strRet).mp h).1
  · intro h
    exact ⟨_, (QuoteWild_ok_iff raw hne hz _).mpr ⟨h, rfl⟩⟩

/-- A line feed and a letter. -/
theorem QuoteWild_sample : ∃ strRet, QuoteWild (fun _ => 7) [10, 97] = .ok strRet :=
  (QuoteWild_iff _ (by decide) (by decide)).mpr ⟨⟨97, by decide, by decide⟩, by decide⟩

/-- One line feed takes both cells. -/
theorem QuoteWild_newline : ¬ ∃ strRet, QuoteWild (fun _ => 7) [10] = .ok strRet := by
  rintro ⟨strRet, h⟩
  cases h

end StringUtility

end CommonCc
