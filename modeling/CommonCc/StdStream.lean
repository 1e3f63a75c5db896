import CommonCc.Base

/-!
# Input streams

A `std::istream` is what it has left to deliver, with its state flags.
-/

namespace CommonCc

structure IStream where
  rest : Bytes
  eofbit : Bool
  failbit : Bool
deriving Repr, DecidableEq

namespace IStream

/-- A stream that has just been opened. -/
def ofContent (content : Bytes) : IStream := ⟨content, false, false⟩

def good (is : IStream) : Bool := !is.eofbit && !is.failbit

/-- `operator bool`. -/
def ok (is : IStream) : Bool := !is.failbit

/-- `std::getline`.  A line that ends with the stream sets `eofbit`; a call that extracts nothing
sets `failbit`, and one on a stream that is not good leaves the string alone. -/
def getline (is : IStream) (str : Bytes) : IStream × Bytes :=
  if is.good then
    let line := is.rest.takeWhile (· ≠ 10)
    match is.rest.dropWhile (· ≠ 10) with
    | [] => (⟨[], true, line.isEmpty⟩, line)
    | _ :: rest => (⟨rest, false, false⟩, line)
  else ({ is with failbit := true }, str)

theorem good_ofContent (content : Bytes) : (ofContent content).good = true := rfl

/-- A line with its line end. -/
theorem getline_line {a : Bytes} (h : 10 ∉ a) (s str : Bytes) :
    (ofContent (a ++ 10 :: s)).getline str = (ofContent s, a) := by
  have hall : ∀ c ∈ a, decide (c ≠ 10) = true := fun c hc =>
    decide_eq_true fun he => h (he ▸ hc)
  rw [getline, if_pos (good_ofContent _), ofContent, List.takeWhile_append_of_pos hall,
    List.dropWhile_append_of_pos hall]
  simp [ofContent]

/-- The end of the stream. -/
theorem getline_last {a : Bytes} (h : 10 ∉ a) (str : Bytes) :
    (ofContent a).getline str = (⟨[], true, a.isEmpty⟩, a) := by
  have hall : ∀ c ∈ a, decide (c ≠ 10) = true := fun c hc =>
    decide_eq_true fun he => h (he ▸ hc)
  rw [getline, if_pos (good_ofContent _), ofContent, List.takeWhile_eq_self_iff.mpr hall,
    List.dropWhile_eq_nil_iff.mpr hall]

end IStream

/-- Every text is a sequence of whole lines and a rest without line end. -/
theorem exists_lines (s : Bytes) :
    ∃ (texts : List Bytes) (a : Bytes), (∀ t ∈ texts, 10 ∉ t) ∧ 10 ∉ a ∧
      s = texts.flatMap (· ++ [10]) ++ a := by
  induction s with
  | nil => exact ⟨[], [], fun t ht => absurd ht List.not_mem_nil, List.not_mem_nil, rfl⟩
  | cons c s ih =>
      obtain ⟨texts, a, htexts, ha, hs⟩ := ih
      by_cases hc : c = 10
      · exact ⟨[] :: texts, a, List.forall_mem_cons.mpr ⟨List.not_mem_nil, htexts⟩, ha, by
          rw [hs, hc]
          rfl⟩
      · cases texts with
        | nil => exact ⟨[], c :: a, htexts, by simp [Ne.symm hc, ha], by rw [hs]; rfl⟩
        | cons t texts =>
            have ht := List.forall_mem_cons.mp htexts
            exact ⟨(c :: t) :: texts, a,
              List.forall_mem_cons.mpr ⟨by simp [Ne.symm hc, ht.1], ht.2⟩, ha, by rw [hs]; rfl⟩

end CommonCc
