import CommonCc.Lib.Loop
import CommonCc.Lib.Regions
import CommonCc.StdString

/-!
# Comments

`StringUtility::StripComments`.  The pointer is the text from its place on.
-/

namespace CommonCc

namespace StringUtility

/-- `<!--` and a white space. -/
def opens (ptr : Bytes) : Bool := decide ([60, 33, 45, 45] <+: ptr) && (ptr[4]?).any isSpace

/-- `-->`. -/
def closes (ptr : Bytes) : Bool := decide ([45, 45, 62] <+: ptr)

/-- One round of the loop, with `ptr`, `bIsInsideComment` and `strNewFile`. -/
def stripRound : Bytes × Bool × Bytes → Except Fault ((Bytes × Bool × Bytes) ⊕ Bytes)
  | (ptr, bIsInsideComment, strNewFile) =>
      let (ptr, bIsInsideComment) :=
        if !bIsInsideComment then (ptr, opens ptr)
        else if closes ptr then (ptr.drop 3, false)
        else (ptr, true)
      match ptr with
      | [] => .ok (.inr strNewFile)
      | c :: rest =>
          .ok (.inl (rest, bIsInsideComment,
            if bIsInsideComment then strNewFile else strNewFile ++ [c]))

def StripComments (strRawFile : Bytes) : Rounds Fault Bytes :=
  loop stripRound (strRawFile, false, [])

/-! ## Comments of a text -/

/-- The length of the comment at the begin of a text, through the first `-->` or to the end. -/
def commentAt (t : Bytes) : Option Nat :=
  if opens t then
    match search [45, 45, 62] (t.drop 4) with
    | none => some t.length
    | some i => some (4 + i + 3)
  else none

/-- The text without comments. -/
def withoutComments (s : Bytes) : Bytes := deleteRegions commentAt s

/-- No comment starts right behind another one. -/
def CommentsApart (s : Bytes) : Prop := ∀ t, AfterRegion commentAt s t → opens t = false

section

variable {t : Bytes} {i : Nat}

theorem eq_of_opens (h : opens t = true) :
    ∃ e rest, t = 60 :: 33 :: 45 :: 45 :: e :: rest ∧ isSpace e = true := by
  simp only [opens, Bool.and_eq_true, decide_eq_true_eq] at h
  obtain ⟨⟨rest, rfl⟩, hspace⟩ := h
  cases rest with
  | nil => simp at hspace
  | cons e rest => exact ⟨e, rest, rfl, by simpa using hspace⟩

/-- The begin of a comment has no part of a `-->`. -/
theorem search_close_of_opens (h : opens t = true) :
    search [45, 45, 62] t = (search [45, 45, 62] (t.drop 4)).map (4 + ·) := by
  obtain ⟨e, rest, rfl, hspace⟩ := eq_of_opens h
  have hgreater : e ≠ 62 := by
    rintro rfl
    exact absurd hspace (by decide)
  have hdash : e ≠ 45 := by
    rintro rfl
    exact absurd hspace (by decide)
  have hskip : search [45, 45, 62] (60 :: 33 :: 45 :: 45 :: e :: rest) =
      (search [45, 45, 62] rest).map (· + 5) := by
    simp [search, List.cons_prefix_cons, hgreater.symm, hdash.symm]
  have hskip' : search [45, 45, 62] (e :: rest) = (search [45, 45, 62] rest).map (· + 1) := by
    simp [search, List.cons_prefix_cons, hdash.symm]
  rw [hskip, List.drop_succ_cons, List.drop_succ_cons, List.drop_succ_cons, List.drop_succ_cons,
    List.drop_zero, hskip', Option.map_map]
  congr 1
  funext i
  exact Nat.add_comm i 5 |>.trans (by simp only [Function.comp_apply]; omega)

theorem opens_of_ne {c : UInt8} (h : c ≠ 60) : opens (c :: t) = false := by
  simp [opens, List.cons_prefix_cons, h.symm]

theorem commentAt_of_not_opens (h : opens t = false) : commentAt t = none := by
  rw [commentAt, if_neg (by rw [h]; exact Bool.false_ne_true)]

theorem commentAt_of_closed (h : opens t = true) (hclose : search [45, 45, 62] t = some i) :
    commentAt t = some (i + 3) := by
  rw [search_close_of_opens h] at hclose
  obtain ⟨k, hk, hi⟩ := Option.map_eq_some_iff.mp hclose
  rw [commentAt, if_pos h, hk, ← hi]

theorem commentAt_of_unclosed (h : opens t = true) (hclose : search [45, 45, 62] t = none) :
    commentAt t = some t.length := by
  rw [search_close_of_opens h, Option.map_eq_none_iff] at hclose
  rw [commentAt, if_pos h, hclose]

/-! ## What is left of a text -/

theorem withoutComments_nil : withoutComments [] = [] := deleteRegions_nil _

theorem withoutComments_cons {c : UInt8} (h : opens (c :: t) = false) :
    withoutComments (c :: t) = c :: withoutComments t :=
  deleteRegions_skip (commentAt_of_not_opens h)

theorem withoutComments_closed (h : opens t = true) (hclose : search [45, 45, 62] t = some i) :
    withoutComments t = withoutComments (t.drop (i + 3)) :=
  deleteRegions_region (commentAt_of_closed h hclose) (Nat.succ_pos _)

theorem withoutComments_unclosed (h : opens t = true) (hclose : search [45, 45, 62] t = none) :
    withoutComments t = [] := by
  obtain ⟨e, rest, rfl, -⟩ := eq_of_opens h
  rw [withoutComments, deleteRegions_region (commentAt_of_unclosed h hclose) (Nat.succ_pos _),
    List.drop_length, deleteRegions_nil]

theorem commentsApart_nil : CommentsApart [] :=
  fun _ h => absurd h (not_afterRegion fun j _ => by rw [List.drop_nil]; rfl)

theorem commentsApart_cons_iff {c : UInt8} (h : opens (c :: t) = false) :
    CommentsApart (c :: t) ↔ CommentsApart t :=
  forall_congr' fun _ => imp_congr_left (afterRegion_skip_iff (commentAt_of_not_opens h))

theorem commentsApart_closed_iff (h : opens t = true) (hclose : search [45, 45, 62] t = some i) :
    CommentsApart t ↔ opens (t.drop (i + 3)) = false ∧ CommentsApart (t.drop (i + 3)) := by
  unfold CommentsApart
  simp only [afterRegion_region_iff (commentAt_of_closed h hclose), forall_eq_or_imp]

theorem commentsApart_unclosed (h : opens t = true) (hclose : search [45, 45, 62] t = none) :
    CommentsApart t := by
  intro u hu
  rw [afterRegion_region_iff (commentAt_of_unclosed h hclose), List.drop_length] at hu
  rcases hu with rfl | hu
  · rfl
  · exact commentsApart_nil u hu

theorem withoutComments_close (t : Bytes) :
    withoutComments ([45, 45, 62] ++ t) = [45, 45, 62] ++ withoutComments t := by
  show withoutComments (45 :: 45 :: 62 :: t) = 45 :: 45 :: 62 :: withoutComments t
  rw [withoutComments_cons (opens_of_ne (by decide)),
    withoutComments_cons (opens_of_ne (by decide)), withoutComments_cons (opens_of_ne (by decide))]

/-- Passing all of a comment leaves no more than passing a part of it. -/
theorem withoutComments_drop_le (hclose : search [45, 45, 62] t = some i) :
    (withoutComments (t.drop (i + 3))).length ≤ (withoutComments t).length := by
  induction t generalizing i with
  | nil => cases hclose
  | cons c t ih =>
      cases hopens : opens (c :: t) with
      | true => rw [← withoutComments_closed hopens hclose]
      | false =>
          cases i with
          | zero =>
              obtain ⟨rest, hrest⟩ := (search_spec hclose).2
              rw [List.drop_zero] at hrest
              rw [← hrest, withoutComments_close, List.length_append]
              exact Nat.le_add_left _ _
          | succ i =>
              have hrest := search_drop_of_some hclose (Nat.succ_pos i)
              rw [withoutComments_cons hopens, List.length_cons]
              exact Nat.le_succ_of_le (ih hrest)

end

/-! ## One round -/

section

variable {c : UInt8} {rest t : Bytes} (out : Bytes)

theorem stripRound_nil (bIsInsideComment : Bool) :
    stripRound ([], bIsInsideComment, out) = .ok (.inr out) := by
  cases bIsInsideComment <;> rfl

theorem stripRound_text (h : opens (c :: rest) = false) :
    stripRound (c :: rest, false, out) = .ok (.inl (rest, false, out ++ [c])) := by
  simp only [stripRound, h]
  rfl

theorem stripRound_open (h : opens (c :: rest) = true) :
    stripRound (c :: rest, false, out) = .ok (.inl (rest, true, out)) := by
  simp only [stripRound, h]
  rfl

theorem stripRound_inside (h : closes (c :: rest) = false) :
    stripRound (c :: rest, true, out) = .ok (.inl (rest, true, out)) := by
  simp only [stripRound, h]
  rfl

/-- The character behind a comment is not tested. -/
theorem stripRound_close :
    stripRound ([45, 45, 62] ++ c :: rest, true, out) =
      .ok (.inl (rest, false, out ++ [c])) := rfl

theorem stripRound_last : stripRound ([45, 45, 62], true, out) = .ok (.inr out) := rfl

/-! ## The loop -/

/-- Inside of a comment the loop comes to its end. -/
theorem stripLoop_inside {i : Nat} (hclose : search [45, 45, 62] t = some i)
    (r : Except Fault Bytes) :
    Yields (loop stripRound (t, true, out)) r ↔
      Yields (loop stripRound (t.drop i, true, out)) r := by
  induction t generalizing i with
  | nil => cases hclose
  | cons c t ih =>
      cases i with
      | zero => rfl
      | succ i =>
          have hopen : closes (c :: t) = false :=
            decide_eq_false (search_first hclose (Nat.succ_pos i))
          rw [yields_next (stripRound_inside out hopen)]
          exact ih (search_drop_of_some hclose (Nat.succ_pos i))

theorem stripLoop_unclosed (hclose : search [45, 45, 62] t = none) :
    Yields (loop stripRound (t, true, out)) (.ok out) := by
  induction t with
  | nil => exact yields_leave (stripRound_nil out true)
  | cons c t ih =>
      have hopen : closes (c :: t) = false :=
        decide_eq_false (not_prefix_of_search_eq_none hclose 0)
      rw [yields_next (stripRound_inside out hopen)]
      exact ih (search_drop_of_none hclose 1)

/-- The loop appends `r` from a place on. -/
def Strips (bIsInsideComment : Bool) (t r : Bytes) : Prop :=
  ∀ out, Yields (loop stripRound (t, bIsInsideComment, out)) (.ok (out ++ r))

end

/-- A text `r` is no shorter than `t` without comments, and is the same when `Same` holds. -/
structure AtLeast (t r : Bytes) (Same : Prop) : Prop where
  le : (withoutComments t).length ≤ r.length
  eq_iff : r = withoutComments t ↔ Same

section

variable {c : UInt8} {rest t r : Bytes}

theorem atLeast_nil : AtLeast [] [] (CommentsApart []) where
  le := Nat.le_of_eq (congrArg List.length withoutComments_nil)
  eq_iff := iff_of_true withoutComments_nil.symm commentsApart_nil

/-- A character of the text. -/
theorem AtLeast.cons (h : AtLeast rest r (CommentsApart rest))
    (hopens : opens (c :: rest) = false) : AtLeast (c :: rest) (c :: r) (CommentsApart (c :: rest)) where
  le := by
    rw [withoutComments_cons hopens, List.length_cons, List.length_cons]
    exact Nat.succ_le_succ h.le
  eq_iff := by
    rw [withoutComments_cons hopens, List.cons_inj_right, commentsApart_cons_iff hopens]
    exact h.eq_iff

theorem close_pos_of_opens {i : Nat} (h : opens t = true)
    (hclose : search [45, 45, 62] t = some i) : 0 < i := by
  rw [search_close_of_opens h] at hclose
  obtain ⟨k, -, hk⟩ := Option.map_eq_some_iff.mp hclose
  omega

/-- Without the first character a comment is text. -/
theorem withoutComments_tail_le (hopens : opens (c :: rest) = true) :
    (withoutComments (c :: rest)).length ≤ (withoutComments rest).length := by
  cases hclose : search [45, 45, 62] (c :: rest) with
  | none =>
      rw [withoutComments_unclosed hopens hclose]
      exact Nat.zero_le _
  | some i =>
      have hpos := close_pos_of_opens hopens hclose
      obtain ⟨k, rfl⟩ := Nat.exists_eq_succ_of_ne_zero (Nat.ne_of_gt hpos)
      rw [withoutComments_closed hopens hclose]
      exact withoutComments_drop_le (search_drop_of_some hclose (Nat.succ_pos k))

/-- A character that is not tested. -/
theorem AtLeast.untested (h : AtLeast rest r (CommentsApart rest)) :
    AtLeast (c :: rest) (c :: r) (opens (c :: rest) = false ∧ CommentsApart (c :: rest)) := by
  cases hopens : opens (c :: rest) with
  | false =>
      have hcons := h.cons hopens
      exact ⟨hcons.le, hcons.eq_iff.trans (iff_and_self.mpr fun _ => rfl)⟩
  | true =>
      have hless := withoutComments_tail_le hopens
      have hle := h.le
      constructor
      · rw [List.length_cons]
        omega
      · apply iff_of_false
        · intro heq
          have hlen := congrArg List.length heq
          rw [List.length_cons] at hlen
          omega
        · exact fun hsame => Bool.noConfusion hsame.1

/-- From the end of a comment on, when the loop is known behind the next character. -/
theorem strips_behind (ih : ∀ c rest, t = c :: rest →
      ∃ r, Strips false rest r ∧ AtLeast rest r (CommentsApart rest)) :
    ∃ r, Strips true ([45, 45, 62] ++ t) r ∧
      AtLeast t r (opens t = false ∧ CommentsApart t) := by
  cases t with
  | nil =>
      refine ⟨[], fun out => ?_, atLeast_nil.le, ?_⟩
      · simp only [List.append_nil]
        exact yields_leave (stripRound_last out)
      · exact atLeast_nil.eq_iff.trans (iff_and_self.mpr fun _ => rfl)
  | cons c rest =>
      obtain ⟨r, hstrips, hleast⟩ := ih c rest rfl
      refine ⟨c :: r, fun out => ?_, hleast.untested⟩
      have hrest := hstrips (out ++ [c])
      rw [List.append_assoc] at hrest
      rw [yields_next (stripRound_close out)]
      exact hrest

/-- From the begin of a comment on, when the loop is known on shorter texts. -/
theorem strips_open (hopens : opens (c :: rest) = true) (ih : ∀ u : Bytes,
      u.length < (c :: rest).length → ∃ r, Strips false u r ∧ AtLeast u r (CommentsApart u)) :
    ∃ r, Strips false (c :: rest) r ∧ AtLeast (c :: rest) r (CommentsApart (c :: rest)) := by
  cases hclose : search [45, 45, 62] (c :: rest) with
  | none =>
      refine ⟨[], fun out => ?_, ?_, ?_⟩
      · rw [yields_next (stripRound_open out hopens), List.append_nil]
        exact stripLoop_unclosed out (search_drop_of_none hclose 1)
      · rw [withoutComments_unclosed hopens hclose]
      · rw [withoutComments_unclosed hopens hclose]
        exact iff_of_true rfl (commentsApart_unclosed hopens hclose)
  | some i =>
      have hpos := close_pos_of_opens hopens hclose
      have htext : (c :: rest).drop i = [45, 45, 62] ++ (c :: rest).drop (i + 3) := by
        rw [← List.drop_drop]
        exact (List.prefix_iff_eq_append.mp (search_spec hclose).2).symm
      obtain ⟨r, hstrips, hleast⟩ := strips_behind (t := (c :: rest).drop (i + 3)) fun d u hu => by
        apply ih
        have hlen := congrArg List.length hu
        simp only [List.length_drop, List.length_cons] at hlen ⊢
        omega
      refine ⟨r, fun out => ?_, ?_, ?_⟩
      · have hinside := search_drop_of_some hclose hpos
        rw [List.drop_one, List.tail_cons] at hinside
        obtain ⟨k, rfl⟩ := Nat.exists_eq_succ_of_ne_zero (Nat.ne_of_gt hpos)
        rw [yields_next (stripRound_open out hopens), stripLoop_inside out hinside]
        have hrest := hstrips out
        rw [← htext] at hrest
        exact hrest
      · rw [withoutComments_closed hopens hclose]
        exact hleast.le
      · rw [withoutComments_closed hopens hclose, commentsApart_closed_iff hopens hclose]
        exact hleast.eq_iff

/-- What the loop makes of a text outside of a comment. -/
theorem strips_outside (t : Bytes) :
    ∃ r, Strips false t r ∧ AtLeast t r (CommentsApart t) := by
  induction hn : t.length using Nat.strongRecOn generalizing t with
  | ind n ih =>
      cases t with
      | nil =>
          refine ⟨[], fun out => ?_, atLeast_nil⟩
          rw [List.append_nil]
          exact yields_leave (stripRound_nil out false)
      | cons c rest =>
          cases hopens : opens (c :: rest) with
          | false =>
              obtain ⟨r, hstrips, hleast⟩ := ih rest.length (by simp [← hn]) rest rfl
              refine ⟨c :: r, fun out => ?_, hleast.cons hopens⟩
              have hrest := hstrips (out ++ [c])
              rw [List.append_assoc] at hrest
              rw [yields_next (stripRound_text out hopens)]
              exact hrest
          | true =>
              exact strips_open hopens fun u hu => ih u.length (hn ▸ hu) u rfl

end

/-- The comments are removed exactly when no two of them follow each other without any text
between them. -/
theorem StripComments_iff (s : Bytes) :
    Yields (StripComments s) (.ok (withoutComments s)) ↔ CommentsApart s := by
  obtain ⟨r, hstrips, hleast⟩ := strips_outside s
  have hloop := hstrips []
  rw [List.nil_append] at hloop
  rw [← hleast.eq_iff, StripComments, hloop.iff_eq, Except.ok.injEq]

/-- Of two comments without text between them the second one stays. -/
theorem StripComments_touching :
    ¬ ∀ s, Yields (StripComments s) (.ok (withoutComments s)) := by
  intro h
  have hcode : Yields (StripComments
      [60, 33, 45, 45, 32, 45, 45, 62, 60, 33, 45, 45, 32, 45, 45, 62])
      (.ok [60, 33, 45, 45, 32, 45, 45, 62]) := ⟨15, by decide⟩
  have hspec : withoutComments
      [60, 33, 45, 45, 32, 45, 45, 62, 60, 33, 45, 45, 32, 45, 45, 62] = [] := by
    rw [withoutComments_closed (i := 5) (by decide) (by decide)]
    exact (withoutComments_closed (t := [60, 33, 45, 45, 32, 45, 45, 62]) (i := 5) (by decide)
      (by decide)).trans withoutComments_nil
  have hsame := hcode.unique (h _)
  rw [hspec] at hsame
  cases hsame

end StringUtility

end CommonCc
