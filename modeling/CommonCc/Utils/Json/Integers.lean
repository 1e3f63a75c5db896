import CommonCc.Utils.Json.Invert
import CommonCc.Utils.Json.RoundTrip
import Mathlib.Data.List.Find

/-!
# Integers that are read back

An integer is printed as a `long` and read by `atoi` as an `int`.
-/

namespace CommonCc

namespace Json

variable {δ : Type} {D : DoubleText δ}

/-! ## Paths -/

/-- Into an array or an object. -/
inductive PathStep where
  | index (n : Nat)
  | name (key : Bytes)

/-- How the value of a name is found among the members of an object. -/
abbrev Finder (δ : Type) := Bytes → List (Bytes × Json δ) → Option (Json δ)

def child (find : Finder δ) : Json δ → PathStep → Option (Json δ)
  | .array m_array, .index n => m_array[n]?
  | .object m_object, .name key => find key m_object
  | _, _ => none

def follow (find : Finder δ) : Json δ → List PathStep → Option (Json δ)
  | v, [] => some v
  | v, step :: path => (child find v step).bind fun w => follow find w path

/-- The member whose name is read as `key`, and the last one of several. -/
def readKey : Finder δ := fun key l =>
  (l.reverse.find? fun p => decode (encode p.1) = key).map Prod.snd

/-- The integers at the leaves are those of an `int`. -/
def IntegersFit (v : Json δ) : Prop :=
  ∀ path i, follow findKey v path = some (.integer i) → -2147483648 ≤ i ∧ i < 2147483648

/-- The names on the way to an integer lead there also when they are read. -/
def KeysLead (v : Json δ) : Prop :=
  ∀ path i, follow findKey v path = some (.integer i) →
    ∃ j, follow readKey v path = some (.integer j) ∧ toInt j = toInt i

/-- The tree that is read has the integers of `v`. -/
def IntegersSurvive (D : DoubleText δ) (v : Json δ) : Prop :=
  ∃ w, Parse D (ToString D true v) = .ok w ∧
    ∀ path i, follow findKey v path = some (.integer i) →
      follow findKey w path = some (.integer i)

/-- `%f` of a finite number, which the buffer of the printer has room for. -/
def RealText (s : Bytes) : Prop :=
  s.length < 100 ∧ ∃ c ds, s = c :: ds ∧ startsNumber c = true ∧
    (∀ d ∈ ds, isNumberChar d = true) ∧ 46 ∈ ds

/-- The trees whose text is not cut by a NUL and has no other words for real numbers. -/
inductive Readable (D : DoubleText δ) : Json δ → Prop where
  | unknown : Readable D .unknown
  | integer {i : Int} (hmin : -9223372036854775808 ≤ i) (hmax : i < 9223372036854775808) :
      Readable D (.integer i)
  | real {d : δ} (hd : RealText (D.format d)) : Readable D (.real d)
  | string {s : Bytes} (hs : 0 ∉ s) : Readable D (.string s)
  | boolean (b : Bool) : Readable D (.boolean b)
  | array {l : List (Json δ)} (hl : ∀ v ∈ l, Readable D v) : Readable D (.array l)
  | object {l : List (Bytes × Json δ)} (hkeys : ∀ p ∈ l, 0 ∉ p.1)
      (hl : ∀ p ∈ l, Readable D p.2) : Readable D (.object l)

/-! ## What is read fits -/

theorem IntegersFit.child {v w : Json δ} {step : PathStep} (h : IntegersFit v)
    (hw : Json.child findKey v step = some w) : IntegersFit w := by
  intro path i hi
  apply h (step :: path) i
  rw [follow, hw]
  exact hi

theorem integersFit_of_children {v : Json δ} (hv : ∀ i, v ≠ .integer i)
    (h : ∀ step w, Json.child findKey v step = some w → IntegersFit w) : IntegersFit v := by
  intro path i hi
  cases path with
  | nil => exact absurd (Option.some.inj hi) (hv i)
  | cons step path =>
      rw [follow, Option.bind_eq_some_iff] at hi
      obtain ⟨w, hw, hi⟩ := hi
      exact h step w hw path i hi

theorem integersFit_array {l : List (Json δ)} (h : ∀ v ∈ l, IntegersFit v) :
    IntegersFit (.array l) := by
  apply integersFit_of_children (fun i => by simp)
  intro step w hw
  cases step with
  | index n => exact h w (List.mem_of_getElem? hw)
  | name key => cases hw

theorem integersFit_object {l : List (Bytes × Json δ)} (h : ∀ p ∈ l, IntegersFit p.2) :
    IntegersFit (.object l) := by
  apply integersFit_of_children (fun i => by simp)
  intro step w hw
  cases step with
  | index n => cases hw
  | name key => exact h _ (mem_of_findKey hw)

theorem integersFit_atoi (s : Bytes) : IntegersFit (.integer (atoi s) : Json δ) := by
  intro path i hi
  cases path with
  | nil =>
      cases hi
      exact atoi_range s
  | cons step path => cases hi

theorem integersFit_unknown : IntegersFit (.unknown : Json δ) := by
  apply integersFit_of_children (fun i => by simp)
  intro step w hw
  cases hw

theorem TokenResult.integersFit (D : DoubleText δ) (t : TokenResult) : IntegersFit (t.value D) := by
  unfold TokenResult.value
  split
  · exact integersFit_of_children (fun i => by simp) fun _ _ hw => nomatch hw
  · exact integersFit_atoi _
  · exact integersFit_of_children (fun i => by simp) fun _ _ hw => nomatch hw
  · exact integersFit_of_children (fun i => by simp) fun _ _ hw => nomatch hw
  · exact integersFit_unknown

/-- What the three functions return fits, when what has been collected does. -/
structure ReadsFit (D : DoubleText δ) (fuel : Nat) : Prop where
  value : ∀ index res o rest, parse D fuel index = .ok (res, o, rest) → IntegersFit o
  array : ∀ index l res o rest, (∀ v ∈ l, IntegersFit v) →
    parseArray D fuel index l = .ok (res, o, rest) → IntegersFit o
  object : ∀ index state name l res o rest, (∀ p ∈ l, IntegersFit p.2) →
    parseObject D fuel index state name l = .ok (res, o, rest) → IntegersFit o

section Step

variable {fuel : Nat} {index rest : Bytes} {res : UInt8} {o : Json δ}

theorem ReadsFit.parse (h : ReadsFit D fuel) (ho : Json.parse D (fuel + 1) index = .ok (res, o, rest)) :
    IntegersFit o := by
  rw [Json.parse, bind_eq_ok] at ho
  obtain ⟨t, -, ho⟩ := ho
  split at ho
  · cases ho
    exact t.integersFit D
  split at ho
  · exact h.array _ _ _ _ _ (fun v hv => absurd hv List.not_mem_nil) ho
  split at ho
  · cases ho
    exact integersFit_unknown
  split at ho
  · exact h.object _ _ _ _ _ _ _ (fun v hv => absurd hv List.not_mem_nil) ho
  split at ho
  · cases ho
    exact integersFit_unknown
  split at ho
  · cases ho
    exact integersFit_unknown
  split at ho
  · cases ho
    exact integersFit_unknown
  · rw [bind_eq_ok] at ho
    obtain ⟨text, -, ho⟩ := ho
    cases ho

theorem ReadsFit.parseArray (h : ReadsFit D fuel) {l : List (Json δ)} (hl : ∀ v ∈ l, IntegersFit v)
    (ho : Json.parseArray D (fuel + 1) index l = .ok (res, o, rest)) : IntegersFit o := by
  rw [Json.parseArray, bind_eq_ok] at ho
  obtain ⟨⟨res', v, index'⟩, hv, ho⟩ := ho
  dsimp only at ho
  split at ho
  · refine h.array _ _ _ _ _ (fun x hx => ?_) ho
    cases List.mem_append.mp hx with
    | inl hx => exact hl x hx
    | inr hx => exact List.mem_singleton.mp hx ▸ h.value _ _ _ _ hv
  split at ho
  · cases ho
    exact integersFit_array hl
  split at ho
  · exact h.array _ _ _ _ _ hl ho
  · cases ho

theorem ReadsFit.parseObject (h : ReadsFit D fuel) {state : Nat} {name : Bytes}
    {l : List (Bytes × Json δ)} (hl : ∀ p ∈ l, IntegersFit p.2)
    (ho : Json.parseObject D (fuel + 1) index state name l = .ok (res, o, rest)) :
    IntegersFit o := by
  rw [Json.parseObject.eq_def, bind_eq_ok] at ho
  obtain ⟨⟨res', v, index'⟩, hv, ho⟩ := ho
  dsimp only at ho
  split at ho
  · split at ho
    · exact h.object _ _ _ _ _ _ _ hl ho
    split at ho
    · cases ho
      exact integersFit_object hl
    split at ho
    · exact h.object _ _ _ _ _ _ _ hl ho
    · cases ho
  · split at ho
    · cases ho
    · exact h.object _ _ _ _ _ _ _ hl ho
  · split at ho
    · cases ho
    · refine h.object _ _ _ _ _ _ _ (fun p hp => ?_) ho
      cases mem_insertOrAssign hp with
      | inl hnew =>
          rw [hnew]
          exact h.value _ _ _ _ hv
      | inr hold => exact hl p hold

end Step

theorem reads_fit (D : DoubleText δ) (fuel : Nat) : ReadsFit D fuel := by
  induction fuel with
  | zero =>
      exact {
        value := fun _ _ _ _ h => by cases h
        array := fun _ _ _ _ _ _ h => by cases h
        object := fun _ _ _ _ _ _ _ _ h => by cases h }
  | succ fuel ih =>
      exact {
        value := fun _ _ _ _ h => ih.parse h
        array := fun _ _ _ _ _ hl h => ih.parseArray hl h
        object := fun _ _ _ _ _ _ _ hl h => ih.parseObject hl h }

theorem Parse_fits {data : Bytes} {w : Json δ} (h : Parse D data = .ok w) : IntegersFit w := by
  rw [Parse, parseBuffer, bind_eq_ok] at h
  obtain ⟨⟨res, o, rest⟩, ho, h⟩ := h
  cases h
  exact (reads_fit D _).value _ _ _ _ ho

/-! ## What is read -/

/-- The integers of `w` are those of `v`, converted and by their names as they are read. -/
def Echoes (v w : Json δ) : Prop :=
  ∀ path i, follow findKey w path = some (.integer i) ↔
    ∃ j, follow readKey v path = some (.integer j) ∧ toInt j = i

theorem echoes_of_children {v w : Json δ} (hv : ∀ i, v ≠ .integer i) (hw : ∀ i, w ≠ .integer i)
    (h : ∀ step, Option.Rel Echoes (child readKey v step) (child findKey w step)) : Echoes v w := by
  intro path i
  cases path with
  | nil =>
      constructor
      · intro hi
        exact absurd (Option.some.inj hi) (hw i)
      · rintro ⟨j, hj, -⟩
        exact absurd (Option.some.inj hj) (hv j)
  | cons step path =>
      have hstep := h step
      simp only [follow]
      generalize child readKey v step = x at hstep ⊢
      generalize child findKey w step = y at hstep ⊢
      cases hstep with
      | some hr => exact hr path i
      | none => simp

theorem echoes_leaf {v w : Json δ} (hv : ∀ i, v ≠ .integer i) (hw : ∀ i, w ≠ .integer i)
    (hx : ∀ step, child readKey v step = none) (hy : ∀ step, child findKey w step = none) :
    Echoes v w := by
  apply echoes_of_children hv hw
  intro step
  rw [hx, hy]
  exact Option.Rel.none

theorem echoes_integer (i : Int) : Echoes (.integer i : Json δ) (.integer (toInt i)) := by
  intro path k
  cases path with
  | nil => simp [follow]
  | cons step path => simp [follow, child]

section Related

variable {α β : Type} {R : α → β → Prop} {l : List α} {l' : List β}

theorem forall₂_getElem? (h : List.Forall₂ R l l') (n : Nat) : Option.Rel R l[n]? l'[n]? := by
  induction h generalizing n with
  | nil => exact Option.Rel.none
  | cons hr _ ih =>
      cases n with
      | zero => exact Option.Rel.some hr
      | succ n =>
          rw [List.getElem?_cons_succ, List.getElem?_cons_succ]
          exact ih n

theorem forall₂_find? {p : α → Bool} {q : β → Bool} (h : List.Forall₂ R l l')
    (hpq : ∀ a b, R a b → p a = q b) : Option.Rel R (l.find? p) (l'.find? q) := by
  induction h with
  | nil => exact Option.Rel.none
  | @cons a b l l' hr _ ih =>
      rw [List.find?_cons, List.find?_cons, hpq a b hr]
      cases q b with
      | false => exact ih
      | true => exact Option.Rel.some hr

theorem exists_forall₂ (h : ∀ a ∈ l, ∃ b, R a b) : ∃ l', List.Forall₂ R l l' := by
  induction l with
  | nil => exact ⟨[], .nil⟩
  | cons a l ih =>
      have hl := List.forall_mem_cons.mp h
      obtain ⟨b, hb⟩ := hl.1
      obtain ⟨l', hl'⟩ := ih hl.2
      exact ⟨b :: l', .cons hb hl'⟩

end Related

theorem echoes_array {l l' : List (Json δ)} (h : List.Forall₂ Echoes l l') :
    Echoes (.array l) (.array l') := by
  apply echoes_of_children (fun i => by simp) (fun i => by simp)
  intro step
  cases step with
  | index n => exact forall₂_getElem? h n
  | name key => exact Option.Rel.none

theorem findKey_foldl (key : Bytes) (l : List (Bytes × Json δ)) :
    findKey key (l.foldl (fun m p => insertOrAssign p.1 p.2 m) []) =
      (l.reverse.find? fun p => p.1 = key).map Prod.snd := by
  have h := SortedMap.find_foldl_set l (SortedMap.empty : SortedMap Bytes (Json δ)) key
  rw [SortedMap.find, SortedMap.pairs_foldl_set] at h
  have hempty : (SortedMap.empty : SortedMap Bytes (Json δ)).find key = none := rfl
  rw [hempty, Option.or_none] at h
  convert h
  rfl

theorem echoes_object {l l' : List (Bytes × Json δ)}
    (h : List.Forall₂ (fun p q => q.1 = decode (encode p.1) ∧ Echoes p.2 q.2) l l') :
    Echoes (.object l) (.object (l'.foldl (fun m p => insertOrAssign p.1 p.2 m) [])) := by
  apply echoes_of_children (fun i => by simp) (fun i => by simp)
  intro step
  cases step with
  | index n => exact Option.Rel.none
  | name key =>
      rw [child, child, findKey_foldl, readKey]
      have hfound := forall₂_find? (p := fun p => decode (encode p.1) = key)
        (q := fun q => q.1 = key) (List.rel_reverse h) fun p q hpq => by simp [hpq.1]
      generalize l.reverse.find? (fun p => decode (encode p.1) = key) = x at hfound ⊢
      generalize l'.reverse.find? (fun q => q.1 = key) = y at hfound ⊢
      cases hfound with
      | some hr => exact Option.Rel.some hr.2
      | none => exact Option.Rel.none

/-- The objects in `v` are maps, and no name has a backslash in front of `r` or `n`. -/
def NamesStay (v : Json δ) : Prop :=
  ∀ path l, follow findKey v path = some (.object l) →
    KeysSorted l ∧ ∀ p ∈ l, ¬ [92, 114] <:+: p.1 ∧ ¬ [92, 110] <:+: p.1

theorem readKey_eq {l : List (Bytes × Json δ)} (hsorted : KeysSorted l)
    (hkeys : ∀ p ∈ l, ¬ [92, 114] <:+: p.1 ∧ ¬ [92, 110] <:+: p.1) (key : Bytes) :
    readKey key l = findKey key l := by
  have hread : ∀ p ∈ l.reverse, (decide (decode (encode p.1) = key)) = decide (p.1 = key) := by
    intro p hp
    rw [(decode_encode_iff p.1).mpr (hkeys p (List.mem_reverse.mp hp))]
  have hfind := findKey_foldl key l
  rw [foldl_insertOrAssign hsorted] at hfind
  rw [hfind, readKey, List.find?_congr hread]

theorem NamesStay.keysLead {v : Json δ} (h : NamesStay v) : KeysLead v := by
  have hfollow : ∀ path, follow readKey v path = follow findKey v path := by
    intro path
    induction path generalizing v with
    | nil => rw [follow, follow]
    | cons step path ih =>
        have hchild : child readKey v step = child findKey v step := by
          cases v with
          | object l =>
              cases step with
              | index n => simp only [child]
              | name key =>
                  have hl := h [] l rfl
                  rw [child, child, readKey_eq hl.1 hl.2]
          | _ => cases step <;> simp only [child]
        rw [follow, follow, hchild]
        cases hw : child findKey v step with
        | none => rw [Option.bind_none, Option.bind_none]
        | some w =>
            apply ih
            intro path l hl
            apply h (step :: path) l
            rw [follow, hw]
            exact hl
  intro path i hi
  exact ⟨i, (hfollow path).trans hi, rfl⟩

theorem readAs_real {d : δ} (h : RealText (D.format d)) :
    ReadAs D (.real d) (.real (D.atof (D.format d))) := by
  obtain ⟨-, c, ds, hc, hstart, hds, hdot⟩ := h
  apply readAs_token
  rintro rest ⟨e, r, rfl, he⟩
  have htoken := @Token_number _ _ _ r hstart hds he
  have htype : numberType (c :: ds) = .real := if_pos (List.mem_cons_of_mem c hdot)
  rw [htype] at htoken
  refine ⟨_, by rw [ToString, hc]; exact htoken, rfl, by simp, by simp, ?_, rfl⟩
  rw [hc]
  rfl

theorem Readable.echo {v : Json δ} (h : Readable D v) : ∃ w, ReadAs D v w ∧ Echoes v w := by
  induction h with
  | unknown =>
      exact ⟨_, readAs_unknown, echoes_leaf (fun i => by simp) (fun i => by simp)
        (fun _ => rfl) fun _ => rfl⟩
  | @integer i hmin hmax => exact ⟨_, readAs_integer hmin hmax, echoes_integer i⟩
  | real hd =>
      exact ⟨_, readAs_real hd, echoes_leaf (fun i => by simp) (fun i => by simp)
        (fun _ => rfl) fun _ => rfl⟩
  | string hs =>
      exact ⟨_, readAs_string hs, echoes_leaf (fun i => by simp) (fun i => by simp)
        (fun _ => rfl) fun _ => rfl⟩
  | boolean b =>
      exact ⟨_, readAs_boolean b, echoes_leaf (fun i => by simp) (fun i => by simp)
        (fun _ => rfl) fun _ => rfl⟩
  | array _ ih =>
      obtain ⟨l', hl'⟩ := exists_forall₂ ih
      refine ⟨_, readAs_array (hl'.imp fun _ _ h => h.1), echoes_array (hl'.imp fun _ _ h => h.2)⟩
  | @object l hkeys _ ih =>
      have hmember : ∀ p ∈ l, ∃ q : Bytes × Json δ,
          MemberReadAs D p q ∧ q.1 = decode (encode p.1) ∧ Echoes p.2 q.2 := by
        intro p hp
        obtain ⟨w, hread, hecho⟩ := ih p hp
        obtain ⟨name, hname⟩ : ∃ name, name = decode (encode p.1) := ⟨_, rfl⟩
        exact ⟨(name, w), ⟨hkeys p hp, hname, hread⟩, hname, hecho⟩
      obtain ⟨l', hl'⟩ := exists_forall₂ hmember
      refine ⟨_, readAs_object (hl'.imp fun _ _ h => h.1), echoes_object (hl'.imp fun _ _ h => h.2)⟩

theorem IntegersSurvive.fit {v : Json δ} (h : IntegersSurvive D v) : IntegersFit v := by
  obtain ⟨w, hw, hsame⟩ := h
  intro path i hi
  exact Parse_fits hw path i (hsame path i hi)

/-- The integers survive only if they fit, and in a readable tree just when they do and no name
leads elsewhere. -/
theorem IntegersSurvive_iff (D : DoubleText δ) (v : Json δ) :
    (IntegersSurvive D v → IntegersFit v) ∧
      (Readable D v → (IntegersSurvive D v ↔ IntegersFit v ∧ KeysLead v)) := by
  refine ⟨IntegersSurvive.fit, fun hv => ?_⟩
  obtain ⟨w, hread, hecho⟩ := hv.echo
  have hw := Parse_of_readAs hread
  constructor
  · intro h
    refine ⟨h.fit, ?_⟩
    obtain ⟨w', hw', hsame⟩ := h
    obtain rfl := Except.ok.inj (hw.symm.trans hw')
    intro path i hi
    obtain ⟨j, hj, hji⟩ := (hecho path i).mp (hsame path i hi)
    have hfit := Parse_fits hw path i (hsame path i hi)
    exact ⟨j, hj, hji.trans (toInt_of_mem hfit.1 hfit.2).symm⟩
  · rintro ⟨hfit, hlead⟩
    refine ⟨w, hw, fun path i hi => ?_⟩
    obtain ⟨j, hj, hji⟩ := hlead path i hi
    have hrange := hfit path i hi
    exact (hecho path i).mpr ⟨j, hj, hji.trans (toInt_of_mem hrange.1 hrange.2)⟩

/-- `2147483648` is read as `-2147483648`. -/
theorem IntegersSurvive_large : ¬ IntegersSurvive wholeDoubles (.integer 2147483648) := by
  intro h
  have hfit := h.fit [] 2147483648 rfl
  omega

end Json

end CommonCc
