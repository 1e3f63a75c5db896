import CommonCc.Utils.Wildcard.Sets

/-!
# Whether the matcher ends

For every pattern: on all texts, if and only if no set that the search can come to has a
range that goes wrong.
-/

namespace CommonCc

namespace StringUtility

/-- On some text the search in a pattern comes to the set with the given text.  It gets
behind a set only with a character of the set. -/
inductive Reaches : Bytes → Bytes → Prop
  | here {itWild text rest : Bytes} (h : setEnd itWild = some (text, rest)) :
      Reaches (91 :: itWild) text
  | behind {itWild front rest text : Bytes} (h : setEnd itWild = some (front, rest))
      (haccepting : Accepting front) (hrest : Reaches rest text) : Reaches (91 :: itWild) text
  | escape {e : UInt8} {itWild text : Bytes} (h : Reaches itWild text) :
      Reaches (92 :: e :: itWild) text
  | skip {x : UInt8} {itWild text : Bytes} (hset : x ≠ 91) (hslash : x ≠ 92)
      (h : Reaches itWild text) : Reaches (x :: itWild) text

/-- Every set that the search can come to is sound. -/
def SoundSets (strWild : Bytes) : Prop := ∀ text, Reaches strWild text → Sound text

section

variable {strWild itWild text : Bytes} {x : UInt8}

theorem SoundSets.skip (h : SoundSets (x :: itWild)) (hset : x ≠ 91) (hslash : x ≠ 92) :
    SoundSets itWild := fun text ht => h text (.skip hset hslash ht)

/-- With sound sets the search has a result. -/
theorem MatchRemainder_ok_of_sound :
    (∀ itWild itMatch, SoundSets itWild → ∃ b, MatchRemainder itWild itMatch = .ok b) ∧
      ∀ itWild i, SoundSets itWild → ∃ b, starLoop itWild i = .ok b := by
  apply MatchRemainder.mutual_induct
  case case1 =>
    intro itWild c itMatch ih h
    rw [MatchRemainder_star]
    exact ih (h.skip (by decide) (by decide))
  case case2 =>
    intro itWild c itMatch hopen _ _
    exact ⟨false, MatchRemainder_open hopen⟩
  case case3 =>
    intro itWild c itMatch text rest hset _ ih h
    have hsound : Sound text := h text (.here hset)
    rw [MatchRemainder_set hset]
    cases (MatchSet_ok_iff text c).mpr hsound with
    | intro b hb =>
        rw [hb]
        cases b with
        | false => exact ⟨false, rfl⟩
        | true =>
            have haccepting := (exists_MatchSet text hsound).mp ⟨c, hb⟩
            exact ih fun t ht => h t (.behind hset haccepting ht)
  case case4 =>
    intro itWild c itMatch _ _ ih h
    rw [MatchRemainder_any]
    exact ih (h.skip (by decide) (by decide))
  case case5 =>
    intro c itMatch _ _ _ _
    rw [MatchRemainder.eq_def]
    exact ⟨false, rfl⟩
  case case6 =>
    intro itMatch e itWild _ _ _ ih h
    rw [MatchRemainder_escape, if_pos rfl]
    exact ih fun t ht => h t (.escape ht)
  case case7 =>
    intro c itMatch e itWild hne _ _ _ _
    rw [MatchRemainder_escape, if_neg hne]
    exact ⟨false, rfl⟩
  case case8 =>
    intro itWild c itMatch hstar hset hany hslash ih h
    rw [MatchRemainder_plain hstar hset hany hslash, if_pos rfl]
    exact ih (h.skip hset hslash)
  case case9 =>
    intro x itWild c itMatch hstar hset hany hslash hne _
    rw [MatchRemainder_plain hstar hset hany hslash, if_neg hne]
    exact ⟨false, rfl⟩
  case case10 =>
    intro itWild itMatch hend _
    cases itMatch with
    | nil => exact ⟨_, MatchRemainder_nil itWild⟩
    | cons c itMatch =>
        cases itWild with
        | nil => exact ⟨_, MatchRemainder_end (c :: itMatch)⟩
        | cons x itWild => exact absurd rfl (hend x itWild c itMatch rfl)
  case case11 =>
    intro itWild _
    rw [starLoop.eq_def]
    exact ⟨false, rfl⟩
  case case12 =>
    intro c _
    exact ⟨_, starLoop_end [c]⟩
  case case13 =>
    intro c i _ _ _
    exact ⟨_, starLoop_end (c :: i)⟩
  case case14 =>
    intro itWild c i hne ih ihi h
    rw [starLoop.eq_def]
    simp only [if_neg hne]
    cases ih h with
    | intro b hb =>
        rw [hb]
        cases b with
        | false => exact ihi h
        | true => exact ⟨true, rfl⟩

theorem exists_error_of_set {rest : Bytes} (h : setEnd itWild = some (text, rest))
    (htext : ¬ Sound text) : ∃ c s e, MatchRemainder (91 :: itWild) (c :: s) = .error e := by
  refine ⟨0, [], ?_⟩
  rw [MatchRemainder_set h]
  cases hrun : MatchSet text 0 with
  | error e => exact ⟨e, rfl⟩
  | ok b => exact absurd ((MatchSet_ok_iff text 0).mp ⟨b, hrun⟩) htext

/-- A text on which the search comes to a set that is not sound. -/
theorem Reaches.exists_error (h : Reaches strWild text) (htext : ¬ Sound text) :
    ∃ c s e, MatchRemainder strWild (c :: s) = .error e := by
  induction h with
  | here h => exact exists_error_of_set h htext
  | @behind itWild front rest text h haccepting _ ih =>
      by_cases hsound : Sound front
      · cases (exists_MatchSet front hsound).mpr haccepting with
        | intro c hc =>
            obtain ⟨d, s, e, herror⟩ := ih htext
            refine ⟨c, d :: s, e, ?_⟩
            rw [MatchRemainder_set h, hc]
            exact herror
      · exact exists_error_of_set h hsound
  | @escape e itWild text _ ih =>
      obtain ⟨d, s, err, herror⟩ := ih htext
      refine ⟨e, d :: s, err, ?_⟩
      rw [MatchRemainder_escape, if_pos rfl]
      exact herror
  | @skip x itWild text hbracket hslash hreach ih =>
      obtain ⟨d, s, err, herror⟩ := ih htext
      by_cases hstar : x = 42
      · -- the first suffix that the loop tries
        refine ⟨0, d :: s, err, ?_⟩
        have hne : itWild ≠ [] := by
          intro hnil
          rw [hnil] at hreach
          cases hreach
        rw [hstar, MatchRemainder_star, starLoop_eq hne]
        exact trySuffixes_error d herror
      · by_cases hany : x = 63
        · refine ⟨0, d :: s, err, ?_⟩
          rw [hany, MatchRemainder_any]
          exact herror
        · refine ⟨x, d :: s, err, ?_⟩
          rw [MatchRemainder_plain hstar hbracket hany hslash, if_pos rfl]
          exact herror

theorem MatchWildcard_ok_iff (strWild : Bytes) :
    (∀ strMatch, ∃ b, MatchWildcard strWild strMatch = .ok b) ↔ SoundSets strWild := by
  constructor
  · intro h text hreach
    by_contra hsound
    obtain ⟨c, s, e, herror⟩ := hreach.exists_error hsound
    cases h (c :: s) with
    | intro b hb =>
        rw [MatchWildcard, herror] at hb
        cases hb
  · intro h strMatch
    exact MatchRemainder_ok_of_sound.1 strWild strMatch h

end

/-- A set's text is read without a fault if and only if it is sound, and a pattern is matched
with every text without a fault if and only if the sets that the search can come to are. -/
theorem MatchSet_total_iff (strPattern : Bytes) (strMatch : UInt8) (strWild : Bytes) :
    ((∃ b, MatchSet strPattern strMatch = .ok b) ↔ Sound strPattern) ∧
      ((∀ s, ∃ b, MatchWildcard strWild s = .ok b) ↔
        ∀ text, Reaches strWild text → Sound text) :=
  ⟨MatchSet_ok_iff strPattern strMatch, MatchWildcard_ok_iff strWild⟩

/-- A range to the largest `char` is expanded without end, and behind a reversed range there is
no character to take away. -/
theorem ranges_fault :
    (∀ c, MatchSet [97, 45, 127] c = .error .diverges) ∧
      (∀ c, MatchSet (ascii ['z', '-', 'a', '-', 'b']) c = .error .outOfBounds) ∧
      MatchWildcard [91, 97, 45, 127, 93] [97] = .error .diverges := by
  have hset : ∀ c, MatchSet [97, 45, 127] c = .error .diverges := by
    intro c
    have hrange := @run_range_endless [97] 127 (by decide) (List.cons_ne_nil 97 []) 97
    rw [MatchSet, setLoop_plain (by decide) (by decide), setLoop_range, List.nil_append, hrange]
    rfl
  refine ⟨hset, fun c => ?_, ?_⟩
  · rfl
  · rw [MatchWildcard, MatchRemainder_set (by rfl), hset]
    rfl

end StringUtility

end CommonCc
