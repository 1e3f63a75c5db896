import CommonCc.Base

/-!
# `TimeTick`

A point of time, or a difference of two, as seconds and microseconds.  In a normalized value the
two do not differ in sign and the microseconds make up less than a second.  The copy constructor
normalizes, so a copy of a normalized value is the value.
-/

namespace CommonCc

/-- `m_sec` is a `time_t` of 64 bits, `m_usec` an `int`. -/
structure TimeTick where
  m_sec : Int
  m_usec : Int
deriving Repr, DecidableEq

namespace TimeTick

/-! ## The functions -/

def IsNormalized (t : TimeTick) : Prop :=
  (0 ≤ t.m_sec ∧ 0 ≤ t.m_usec ∧ t.m_usec < 1000000) ∨
    (t.m_sec ≤ 0 ∧ t.m_usec ≤ 0 ∧ -1000000 < t.m_usec)

instance : DecidablePred IsNormalized := fun t => by
  unfold IsNormalized
  infer_instance

def Normalize (t : TimeTick) : TimeTick :=
  if t.IsNormalized then t
  else if 0 ≤ t.m_sec then
    if 0 ≤ t.m_usec then ⟨toLong (t.m_sec + t.m_usec.tdiv 1000000), t.m_usec.tmod 1000000⟩
    else
      let m_sec := toLong (t.m_sec - (toInt (-t.m_usec)).tdiv 1000000)
      let m_usec := -((toInt (-t.m_usec)).tmod 1000000)
      if 0 < m_sec ∧ m_usec < 0 then ⟨m_sec - 1, 1000000 + m_usec⟩ else ⟨m_sec, m_usec⟩
  else
    if 0 ≤ t.m_usec then
      let m_sec := toLong (t.m_sec + t.m_usec.tdiv 1000000)
      let m_usec := t.m_usec.tmod 1000000
      if m_sec < 0 ∧ 0 < m_usec then ⟨m_sec + 1, m_usec - 1000000⟩ else ⟨m_sec, m_usec⟩
    else
      ⟨toLong (t.m_sec - (toInt (-t.m_usec)).tdiv 1000000),
        -((toInt (-t.m_usec)).tmod 1000000)⟩

/-- `operator+`. -/
instance : Add TimeTick where
  add a b := Normalize ⟨toLong (a.m_sec + b.m_sec), toInt (a.m_usec + b.m_usec)⟩

/-- `operator-` of two values. -/
instance : Sub TimeTick where
  sub a b := Normalize ⟨toLong (a.m_sec - b.m_sec), toInt (a.m_usec - b.m_usec)⟩

/-- `operator-` of one value, which does not normalize. -/
instance : Neg TimeTick where
  neg a := ⟨toLong (-a.m_sec), toInt (-a.m_usec)⟩

/-- `operator+=` and `operator-=`, as the values that they leave. -/
def addAssign (a b : TimeTick) : TimeTick :=
  Normalize { a with m_sec := toLong (a.m_sec + b.m_sec), m_usec := toInt (a.m_usec + b.m_usec) }

def subAssign (a b : TimeTick) : TimeTick :=
  Normalize { a with m_sec := toLong (a.m_sec - b.m_sec), m_usec := toInt (a.m_usec - b.m_usec) }

/-! The comparisons assert that both values are normalized. -/

def asserted (a b : TimeTick) (r : Bool) : Except Fault Bool :=
  if a.IsNormalized ∧ b.IsNormalized then .ok r else .error .assertion

/-- `operator>`. -/
def gt (a b : TimeTick) : Except Fault Bool :=
  asserted a b (a.m_sec > b.m_sec || (a.m_sec = b.m_sec && a.m_usec > b.m_usec))

/-- `operator<`. -/
def lt (a b : TimeTick) : Except Fault Bool :=
  asserted a b (a.m_sec < b.m_sec || (a.m_sec = b.m_sec && a.m_usec < b.m_usec))

/-- `operator>=`. -/
def ge (a b : TimeTick) : Except Fault Bool :=
  asserted a b (a.m_sec ≥ b.m_sec || (a.m_sec = b.m_sec && a.m_usec ≥ b.m_usec))

/-- `operator<=`. -/
def le (a b : TimeTick) : Except Fault Bool :=
  asserted a b (a.m_sec ≤ b.m_sec || (a.m_sec = b.m_sec && a.m_usec ≤ b.m_usec))

/-- `operator==`. -/
def eq (a b : TimeTick) : Except Fault Bool :=
  asserted a b (a.m_sec = b.m_sec && a.m_usec = b.m_usec)

/-- `operator!=`. -/
def ne (a b : TimeTick) : Except Fault Bool :=
  asserted a b (a.m_sec ≠ b.m_sec && a.m_usec ≠ b.m_usec)

/-! ## Totals -/

/-- The value in microseconds. -/
def micros (t : TimeTick) : Int := t.m_sec * 1000000 + t.m_usec

/-- The fields hold their values, `m_usec` is not `INT_MIN`, and `Normalize` does not overflow
`m_sec`. -/
def Fits (t : TimeTick) : Prop :=
  InLong t.m_sec ∧ InLong (t.m_sec + t.m_usec.tdiv 1000000) ∧
    -2147483648 < t.m_usec ∧ t.m_usec < 2147483648

instance : DecidablePred Fits := fun t => by
  unfold Fits
  infer_instance

theorem normalize_of_isNormalized {t : TimeTick} (h : t.IsNormalized) : t.Normalize = t :=
  if_pos h

/-- A total has one normalized value. -/
theorem eq_of_micros_eq {a b : TimeTick} (ha : a.IsNormalized) (hb : b.IsNormalized)
    (h : a.micros = b.micros) : a = b := by
  cases a
  cases b
  simp only [IsNormalized, micros, TimeTick.mk.injEq] at *
  omega

/-- The quotients of `Normalize` are of numbers that are not negative. -/
theorem tdiv_million {z : Int} (h : 0 ≤ z) : z.tdiv 1000000 = z / 1000000 :=
  Int.tdiv_eq_ediv_of_nonneg h

theorem tmod_million {z : Int} (h : 0 ≤ z) : z.tmod 1000000 = z % 1000000 :=
  Int.tmod_eq_emod_of_nonneg h

theorem tdiv_million_neg {z : Int} (h : z < 0) : z.tdiv 1000000 = -(-z / 1000000) := by
  rw [← tdiv_million (show 0 ≤ -z by omega), Int.neg_tdiv, Int.neg_neg]

/-- What the branches with microseconds that are not negative work on. -/
theorem normalize_spec_pos {t : TimeTick} (h : t.Fits) (hnorm : ¬ t.IsNormalized)
    (hpos : 0 ≤ t.m_usec) :
    t.Normalize.IsNormalized ∧ t.Normalize.micros = t.micros := by
  have hlong := toLong_of_mem h.2.1
  have hdiv := tdiv_million hpos
  have hmod := tmod_million hpos
  rw [hdiv] at hlong
  unfold Normalize
  rw [if_neg hnorm, if_pos hpos, if_pos hpos]
  simp only [hdiv, hmod, hlong]
  by_cases hsec : 0 ≤ t.m_sec
  · rw [if_pos hsec]
    simp only [IsNormalized, micros]
    omega
  · rw [if_neg hsec]
    split
    · simp only [IsNormalized, micros]
      omega
    · simp only [IsNormalized, micros]
      omega

theorem normalize_spec_neg {t : TimeTick} (h : t.Fits) (hnorm : ¬ t.IsNormalized)
    (hneg : t.m_usec < 0) :
    t.Normalize.IsNormalized ∧ t.Normalize.micros = t.micros := by
  have hlong := toLong_of_mem h.2.1
  have husec : toInt (-t.m_usec) = -t.m_usec := toInt_of_mem (by omega) (by have := h.2.2; omega)
  have hdiv := tdiv_million (show 0 ≤ -t.m_usec by omega)
  have hmod := tmod_million (show 0 ≤ -t.m_usec by omega)
  rw [tdiv_million_neg hneg, ← Int.sub_eq_add_neg] at hlong
  unfold Normalize
  rw [if_neg hnorm, if_neg (Int.not_le.mpr hneg), if_neg (Int.not_le.mpr hneg)]
  simp only [husec, hdiv, hmod, hlong]
  by_cases hsec : 0 ≤ t.m_sec
  · rw [if_pos hsec]
    split
    · simp only [IsNormalized, micros]
      omega
    · simp only [IsNormalized, micros]
      omega
  · rw [if_neg hsec]
    simp only [IsNormalized, micros]
    omega

theorem normalize_spec {t : TimeTick} (h : t.Fits) :
    t.Normalize.IsNormalized ∧ t.Normalize.micros = t.micros := by
  by_cases hnorm : t.IsNormalized
  · rw [normalize_of_isNormalized hnorm]
    exact ⟨hnorm, rfl⟩
  · by_cases hpos : 0 ≤ t.m_usec
    · exact normalize_spec_pos h hnorm hpos
    · exact normalize_spec_neg h hnorm (by omega)

/-! ## Sums, differences, negations -/

section

variable {a b : TimeTick}

/-- The fields of `a + b` before `Normalize`. -/
def AddFits (a b : TimeTick) : Prop := Fits ⟨a.m_sec + b.m_sec, a.m_usec + b.m_usec⟩

def SubFits (a b : TimeTick) : Prop := Fits ⟨a.m_sec - b.m_sec, a.m_usec - b.m_usec⟩

def NegFits (a : TimeTick) : Prop := InLong (-a.m_sec)

theorem add_eq (h : AddFits a b) :
    a + b = Normalize ⟨a.m_sec + b.m_sec, a.m_usec + b.m_usec⟩ := by
  change Normalize ⟨toLong _, toInt _⟩ = _
  rw [toLong_of_mem h.1, toInt_of_mem (by have := h.2.2; omega) h.2.2.2]

theorem sub_eq (h : SubFits a b) :
    a - b = Normalize ⟨a.m_sec - b.m_sec, a.m_usec - b.m_usec⟩ := by
  change Normalize ⟨toLong _, toInt _⟩ = _
  rw [toLong_of_mem h.1, toInt_of_mem (by have := h.2.2; omega) h.2.2.2]

theorem add_spec (h : AddFits a b) :
    (a + b).IsNormalized ∧ (a + b).micros = a.micros + b.micros := by
  have hspec := normalize_spec h
  rw [add_eq h]
  refine ⟨hspec.1, hspec.2.trans ?_⟩
  simp only [micros]
  omega

theorem sub_spec (h : SubFits a b) :
    (a - b).IsNormalized ∧ (a - b).micros = a.micros - b.micros := by
  have hspec := normalize_spec h
  rw [sub_eq h]
  refine ⟨hspec.1, hspec.2.trans ?_⟩
  simp only [micros]
  omega

theorem neg_spec (ha : a.IsNormalized) (h : NegFits a) :
    (-a).IsNormalized ∧ (-a).micros = -a.micros := by
  have husec : toInt (-a.m_usec) = -a.m_usec := by
    unfold IsNormalized at ha
    exact toInt_of_mem (by omega) (by omega)
  have heq : -a = ⟨-a.m_sec, -a.m_usec⟩ := by
    change TimeTick.mk (toLong _) (toInt _) = _
    rw [toLong_of_mem h, husec]
  rw [heq]
  simp only [IsNormalized, micros] at ha ⊢
  omega

theorem add_sub_cancel (ha : a.IsNormalized) (h : AddFits a b) (h' : SubFits (a + b) b) :
    a + b - b = a := by
  have hsub := sub_spec h'
  have hadd := (add_spec h).2
  exact eq_of_micros_eq hsub.1 ha (by omega)

theorem sub_eq_neg_sub (h : SubFits a b) (h' : SubFits b a) (hneg : NegFits (b - a)) :
    a - b = -(b - a) := by
  have hab := sub_spec h
  have hba := sub_spec h'
  have hsub := neg_spec hba.1 hneg
  exact eq_of_micros_eq hab.1 hsub.1 (by omega)

end

/-- Time arithmetic is that of the totals. -/
theorem arithmetic_of_totals :
    (∀ t : TimeTick, t.Fits →
      t.Normalize.micros = t.micros ∧ t.Normalize.IsNormalized ∧
        t.Normalize.Normalize = t.Normalize) ∧
    ∀ a b : TimeTick, a.IsNormalized → b.IsNormalized →
      (AddFits a b → (a + b).IsNormalized ∧ (a + b).micros = a.micros + b.micros) ∧
      (SubFits a b → (a - b).IsNormalized ∧ (a - b).micros = a.micros - b.micros) ∧
      (NegFits a → (-a).IsNormalized ∧ (-a).micros = -a.micros) ∧
      a.addAssign b = a + b ∧ a.subAssign b = a - b ∧
      (AddFits a b → SubFits (a + b) b → a + b - b = a) ∧
      (SubFits a b → SubFits b a → NegFits (b - a) → a - b = -(b - a)) := by
  refine ⟨fun t h => ?_, fun a b ha _ => ?_⟩
  · have hspec := normalize_spec h
    exact ⟨hspec.2, hspec.1, normalize_of_isNormalized hspec.1⟩
  · exact ⟨add_spec, sub_spec, neg_spec ha, rfl, rfl, add_sub_cancel ha, sub_eq_neg_sub⟩

/-- Two seconds less a microsecond, and back. -/
theorem arithmetic_of_totals_borrow :
    (⟨2, 0⟩ - ⟨0, 1⟩ : TimeTick) = ⟨1, 999999⟩ ∧ (⟨2, 0⟩ + ⟨0, -1⟩ - ⟨0, -1⟩ : TimeTick) = ⟨2, 0⟩ ∧
      Normalize ⟨-1, 1500000⟩ = ⟨0, 500000⟩ ∧
      (Normalize ⟨-1, 1500000⟩).micros = 500000 := by
  have hborrow := (arithmetic_of_totals.2 ⟨2, 0⟩ ⟨0, -1⟩ (by decide) (by decide)).2.2.2.2.2.1
    (by decide : Fits _) (by decide : Fits _)
  have htotal := (arithmetic_of_totals.1 ⟨-1, 1500000⟩ (by decide)).1
  exact ⟨by decide, hborrow, by decide, htotal⟩

/-! ## Comparisons -/

section

variable {a b : TimeTick}

theorem asserted_of_isNormalized (ha : a.IsNormalized) (hb : b.IsNormalized) (r : Bool) :
    asserted a b r = .ok r :=
  if_pos ⟨ha, hb⟩

/-- The totals of normalized values compare by seconds, then by microseconds. -/
theorem micros_lt_iff (ha : a.IsNormalized) (hb : b.IsNormalized) :
    a.micros < b.micros ↔ a.m_sec < b.m_sec ∨ a.m_sec = b.m_sec ∧ a.m_usec < b.m_usec := by
  unfold IsNormalized at ha hb
  unfold micros
  omega

/-- Each comparison answers as the totals do. -/
def ComparesTotals (a b : TimeTick) : Prop :=
  a.gt b = .ok (decide (a.micros > b.micros)) ∧ a.lt b = .ok (decide (a.micros < b.micros)) ∧
    a.ge b = .ok (decide (a.micros ≥ b.micros)) ∧ a.le b = .ok (decide (a.micros ≤ b.micros)) ∧
    a.eq b = .ok (decide (a.micros = b.micros)) ∧ a.ne b = .ok (decide (a.micros ≠ b.micros))

end

/-- The comparisons are those of the totals exactly where both fields agree or neither does. -/
theorem comparesTotals_iff (a b : TimeTick) (ha : a.IsNormalized) (hb : b.IsNormalized) :
    ComparesTotals a b ↔ (a.m_sec = b.m_sec ↔ a.m_usec = b.m_usec) := by
  have hlt := micros_lt_iff ha hb
  have hgt := micros_lt_iff hb ha
  simp only [ComparesTotals, gt, lt, ge, le, eq, ne, asserted_of_isNormalized ha hb,
    Except.ok.injEq, ← Bool.decide_or, ← Bool.decide_and, decide_eq_decide]
  omega

theorem comparesTotals_iff_days :
    ComparesTotals ⟨-86400, -7⟩ ⟨0, 3⟩ ∧ ¬ ComparesTotals ⟨0, -7⟩ ⟨0, 3⟩ :=
  ⟨(comparesTotals_iff ⟨-86400, -7⟩ ⟨0, 3⟩ (by decide) (by decide)).mpr (by decide),
    fun h => absurd ((comparesTotals_iff ⟨0, -7⟩ ⟨0, 3⟩ (by decide) (by decide)).mp h) (by decide)⟩

/-- One second compares as not less than a second and a microsecond, and as not different
from it. -/
theorem comparesTotals_false :
    IsNormalized ⟨1, 0⟩ ∧ IsNormalized ⟨1, 1⟩ ∧ ge ⟨1, 0⟩ ⟨1, 1⟩ = .ok true ∧
      ne ⟨1, 0⟩ ⟨1, 1⟩ = .ok false ∧ micros ⟨1, 0⟩ < micros ⟨1, 1⟩ ∧
      ¬ ComparesTotals ⟨1, 0⟩ ⟨1, 1⟩ := by
  have hge : ge ⟨1, 0⟩ ⟨1, 1⟩ = .ok true := by decide
  have hne : ne ⟨1, 0⟩ ⟨1, 1⟩ = .ok false := by decide
  refine ⟨by decide, by decide, hge, hne, by decide, fun h => ?_⟩
  exact absurd (hge.symm.trans h.2.2.1) (by decide)

end TimeTick

end CommonCc
