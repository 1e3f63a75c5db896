import CommonCc.Lib.Answers
import CommonCc.Utils.MemFile.Chain

/-!
# What a `MemFile` answers

The calls with what they return.  What `Fread` and `Fgets` put into the memory of the caller is a
part of the answer, as is the file that `Save` writes.
-/

namespace CommonCc

namespace LinkedFile

variable {raw : Nat → Nat → UInt8} {f f₁ : LinkedFile}

/-- `(off_t)m_write_ptr`. -/
def Size (f : LinkedFile) : Int :=
  (f.m_write_ptr + 9223372036854775808) % 18446744073709551616 - 9223372036854775808

def Eof (f : LinkedFile) : Bool := f.m_b_read_caused_eof

inductive Query where
  | call (call : FileCall)
  | Size
  | Eof

inductive Answer where
  | read (ptr : Bytes) (n : Nat)
  | written (n : Nat)
  | line (s : Bytes)
  | done
  | opened (ok : Bool)
  | saved (fil : Option Bytes)
  | size (n : Int)
  | eof (b : Bool)
deriving DecidableEq

def ask (raw : Nat → Nat → UInt8) (f : LinkedFile) : Query → Except Fault (Answer × LinkedFile)
  | .call (.Fread size nmemb) => (f.Fread size nmemb).map fun r => (.read r.1.1 r.1.2, r.2)
  | .call (.Fwrite ptr size nmemb) =>
      (f.Fwrite raw ptr size nmemb).map fun r => (.written r.1, r.2)
  | .call (.Fgets size) => (f.Fgets size).map fun r => (.line r.1, r.2)
  | .call .ResetRead => .ok (.done, f.ResetRead)
  | .call .ResetWrite => .ok (.done, f.ResetWrite)
  | .call (.Load fil) => (f.Load raw fil).map fun r => (.opened r.1, r.2)
  | .call (.Save opened) => (f.Save opened).map fun r => (.saved r.1, r.2)
  | .Size => .ok (.size f.Size, f)
  | .Eof => .ok (.eof f.Eof, f)

/-- The calls are those of a run. -/
theorem step_of_ask {call : FileCall} {a : Answer} (h : f.ask raw (.call call) = .ok (a, f₁))
    (content : Bytes) : ∃ content', Contents.step raw ⟨f, content⟩ call = .ok ⟨f₁, content'⟩ := by
  cases call with
  | ResetRead =>
      cases h
      exact ⟨content, rfl⟩
  | ResetWrite =>
      cases h
      exact ⟨[], rfl⟩
  | _ =>
      rcases map_eq_ok.mp h with ⟨r, hr, hpair⟩
      cases hpair
      exact ⟨_, map_eq_ok.mpr ⟨r, hr, rfl⟩⟩

/-- What the steps of the calls keep, a query keeps. -/
theorem Kept.ask {I : LinkedFile → Prop} (hk : Kept raw I) (h : I f) {q : Query} {a : Answer}
    (hask : f.ask raw q = .ok (a, f₁)) : I f₁ := by
  cases q with
  | call call =>
      rcases step_of_ask hask [] with ⟨content', hstep⟩
      exact @Kept.step raw I hk ⟨f, []⟩ _ call h hstep
  | Size =>
      cases hask
      exact h
  | Eof =>
      cases hask
      exact h

/-! ## Two files -/

section Loop

variable {R : LinkedFile → LinkedFile → Prop} {g : LinkedFile}
  {read : LinkedFile → Except Fault ((Bytes × Nat) × LinkedFile)}

/-- Files that answer each read of a character alike answer `Fgets` alike. -/
theorem fgetsLoop_same (heof : ∀ f g, R f g → g.m_b_read_caused_eof = f.m_b_read_caused_eof)
    (hread : ∀ f g, R f g → SameAnswer R (read f) (read g)) (h : R f g) (size : Int) (fuel : Nat)
    (s : Bytes) : SameAnswer R (fgetsLoop read size fuel f s) (fgetsLoop read size fuel g s) := by
  induction fuel generalizing f g s with
  | zero => exact .error _
  | succ fuel ih =>
      rw [fgetsLoop, fgetsLoop, heof f g h]
      split
      · have hsame := hread f g h
        generalize read f = x at hsame
        generalize read g = y at hsame
        cases hsame with
        | error e => exact .error e
        | @ok r f₁ g₁ h₁ =>
            dsimp only
            split
            · exact ih h₁ s
            split
            · exact .ok h₁
            · exact ih h₁ _
      · exact .ok h

end Loop

end LinkedFile

end CommonCc
