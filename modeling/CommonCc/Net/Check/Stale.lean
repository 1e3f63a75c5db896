import CommonCc.Net.Check.Text

/-!
# Bytes behind the message

The searches and the number go on behind the message, and behind the bytes that were
received.  Which bytes there change what `net_complete_http` reports.
-/

namespace CommonCc

/-! ## The check as a function of the text -/

/-- What the check says of a terminated text. -/
def checkText (text : Bytes) (data_len : Nat) : Int :=
  if data_len < 14 then 0
  else
    match search CRLFCRLF text with
    | none => if 10240000 < data_len then -1 else 0
    | some p =>
        match search CONTENT_LENGTH text with
        | none => toInt (p + 4)
        | some q => framed data_len p (atoi (text.drop (q + 15)))

theorem net_complete_http_eq {data : Memory UInt8} (h : (textOf data).length < data.size)
    (data_len : Nat) : net_complete_http data data_len = .ok (checkText (textOf data) data_len) := by
  unfold checkText
  by_cases hshort : data_len < 14
  · rw [net_complete_http_short hshort, if_pos hshort]
  rw [if_neg hshort]
  cases hp : search CRLFCRLF (textOf data) with
  | none => exact net_complete_http_no_header hshort hp h
  | some p =>
      cases hq : search CONTENT_LENGTH (textOf data) with
      | none => exact net_complete_http_no_body hshort hp hq h
      | some q => exact net_complete_http_body hshort hp hq

theorem framed_le (data_len p : Nat) (v : Int) : framed data_len p v ≤ data_len := by
  unfold framed
  dsimp only
  split
  · unfold toInt
    omega
  · omega

/-- A number changes the length of the packet by as much, if the packet is there at all. -/
theorem framed_eq_iff {data_len p : Nat} (hp : p + 4 < 4294967296) {v : Int}
    (hv : -2147483648 ≤ v) (hv' : v < 2147483648) :
    framed data_len p v = ((p + 4 : Nat) : Int) ↔
      v = 0 ∧ p + 4 ≤ data_len ∧ p + 4 < 2147483648 := by
  unfold framed toInt
  dsimp only
  split <;> omega

/-! ## A message and the next ones -/

section Pipelined

variable {h t : Bytes} {data : Memory UInt8}

/-- A message without a body ends at its blank line exactly when the number behind the first
`Content-Length:` of the following messages, if there is one, is zero. -/
theorem pipelined_iff (hlong : 10 ≤ h.length) (hnul : 0 ∉ h) (hfree : ¬ CONTENT_LENGTH <:+: h)
    (hblank : search CRLFCRLF (h ++ CRLFCRLF) = some h.length)
    (htotal : (h ++ CRLFCRLF ++ t).length < 4294967296)
    (hsize : (h ++ CRLFCRLF ++ t).length < data.size)
    (hread : data.read 0 (h ++ CRLFCRLF ++ t).length = h ++ CRLFCRLF ++ t)
    (hend : data.cell (h ++ CRLFCRLF ++ t).length = 0) :
    net_complete_http data (h ++ CRLFCRLF ++ t).length = .ok ((h.length + 4 : Nat) : Int) ↔
      h.length + 4 < 2147483648 ∧
        ∀ q, search CONTENT_LENGTH (t.takeWhile (· ≠ 0)) = some q →
          atoi ((t.takeWhile (· ≠ 0)).drop (q + 15)) = 0 := by
  have hterm := textOf_terminated hsize hread hend
  have hnul' : 0 ∉ h ++ CRLFCRLF := by simp [hnul, CRLFCRLF]
  rw [takeWhile_append_text hnul'] at hterm
  generalize htail : t.takeWhile (· ≠ 0) = tail at hterm ⊢
  have hlen : (h ++ CRLFCRLF ++ t).length = h.length + 4 + t.length := by
    rw [List.length_append, List.length_append]
    rfl
  have hp : search CRLFCRLF (h ++ CRLFCRLF ++ tail) = some h.length :=
    search_append_of_some hblank tail
  have hskip : search CONTENT_LENGTH (h ++ CRLFCRLF ++ tail) =
      (search CONTENT_LENGTH tail).map (h.length + 4 + ·) := by
    have hnil : ¬ CONTENT_LENGTH <:+: [] := by decide
    have hsplit : h ++ CRLFCRLF ++ tail = h ++ 13 :: ([] ++ 10 :: ([] ++ 13 :: ([] ++ 10 :: tail))) := by
      simp [CRLFCRLF]
    rw [hsplit, search_skip (by decide) hfree, search_skip (by decide) hnil,
      search_skip (by decide) hnil, search_skip (by decide) hnil, Option.map_map, Option.map_map,
      Option.map_map]
    congr 1
    funext i
    simp only [Function.comp_apply, List.length_nil]
    omega
  rw [net_complete_http_eq hterm.2, hterm.1, checkText, if_neg (by omega), hp, hskip]
  cases hq : search CONTENT_LENGTH tail with
  | none =>
      simp only [Option.map_none, Except.ok.injEq, reduceCtorEq, false_implies, implies_true, and_true]
      unfold toInt
      omega
  | some q =>
      have hdrop : (h ++ CRLFCRLF ++ tail).drop (h.length + 4 + q + 15) = tail.drop (q + 15) := by
        rw [show h.length + 4 + q + 15 = (h ++ CRLFCRLF).length + (q + 15) by
          rw [List.length_append, show CRLFCRLF.length = 4 from rfl]; omega,
          List.drop_length_add_append]
      have hrange := atoi_range (tail.drop (q + 15))
      simp only [Option.map_some, hdrop, Except.ok.injEq, Option.some.injEq, forall_eq']
      rw [framed_eq_iff (by omega) hrange.1 hrange.2]
      constructor
      · exact fun hall => ⟨hall.2.2, hall.1⟩
      · exact fun hall => ⟨hall.2, by omega, hall.1⟩

end Pipelined

/-- `GET / HTTP/1.1` -/
def getLine : Bytes := ascii ['G', 'E', 'T', ' ', '/', ' ', 'H', 'T', 'T', 'P', '/', '1', '.', '1']

/-- Behind a message that has no body comes one that has a body of `5` bytes. -/
def postAfter : Bytes := ascii ['P', 'O', 'S', 'T', '\n'] ++ CONTENT_LENGTH ++ [53] ++ CRLFCRLF

theorem pipelined_iff_post :
    net_complete_http (bufferOf (getLine ++ CRLFCRLF ++ postAfter) 0 100) 43 = .ok 18 ↔
      14 + 4 < 2147483648 ∧
        ∀ q, search CONTENT_LENGTH (postAfter.takeWhile (· ≠ 0)) = some q →
          atoi ((postAfter.takeWhile (· ≠ 0)).drop (q + 15)) = 0 :=
  pipelined_iff (h := getLine) (t := postAfter) (by decide) (by decide) (by decide)
    (by decide +kernel) (by decide +kernel) (by decide +kernel) (by decide +kernel)
    (by decide +kernel)

/-- The first message is taken to have the body of the second one. -/
theorem takes_next_length :
    ¬ ∀ (h t : Bytes) (data : Memory UInt8), 10 ≤ h.length → 0 ∉ h →
      ¬ CONTENT_LENGTH <:+: h → search CRLFCRLF (h ++ CRLFCRLF) = some h.length →
      (h ++ CRLFCRLF ++ t).length < 4294967296 → (h ++ CRLFCRLF ++ t).length < data.size →
      data.read 0 (h ++ CRLFCRLF ++ t).length = h ++ CRLFCRLF ++ t →
      data.cell (h ++ CRLFCRLF ++ t).length = 0 →
      net_complete_http data (h ++ CRLFCRLF ++ t).length = .ok ((h.length + 4 : Nat) : Int) := by
  intro hall
  have hget := hall getLine postAfter (bufferOf (getLine ++ CRLFCRLF ++ postAfter) 0 100)
    (by decide) (by decide) (by decide) (by decide +kernel) (by decide +kernel) (by decide +kernel)
    (by decide +kernel) (by decide +kernel)
  exact absurd hget (by decide +kernel)

/-! ## Leftovers of earlier packets -/

/-- The bytes `d` have been received into a buffer that has a NUL somewhere. -/
structure Received (data : Memory UInt8) (d : Bytes) : Prop where
  fits : d.length ≤ data.size
  bytes : data.read 0 d.length = d
  nul : ∃ i < data.size, data.cell i = 0

/-- The header is complete, and so is the number behind its first `Content-Length:`. -/
def Settled (d : Bytes) : Prop :=
  ∃ p q, search CRLFCRLF d = some p ∧ search CONTENT_LENGTH d = some q ∧
    ∀ s, 0 ∉ s → atoi (d.drop (q + 15) ++ s) = atoi (d.drop (q + 15))

section Leftovers

variable {data : Memory UInt8} {d : Bytes}

theorem Received.terminated (h : Received data d) : (textOf data).length < data.size := by
  cases h.nul with
  | intro i hi =>
      have hmem : data.cell i ∈ data.read 0 data.size :=
        List.mem_map.mpr ⟨i, List.mem_range.mpr hi.1, by rw [Nat.zero_add]⟩
      have hle := (List.takeWhile_prefix (l := data.read 0 data.size) (· ≠ 0)).length_le
      rw [← textOf, Memory.read_length] at hle
      apply Nat.lt_of_le_of_ne hle
      intro heq
      have hall : textOf data = data.read 0 data.size :=
        (List.takeWhile_prefix _).eq_of_length (by rw [← textOf, heq, Memory.read_length])
      have hnonzero := List.takeWhile_eq_self_iff.mp hall (data.cell i) hmem
      simp [hi.2] at hnonzero

/-- Behind received bytes without a NUL the text goes on. -/
theorem Received.text (h : Received data d) (hnul : 0 ∉ d) :
    ∃ s, 0 ∉ s ∧ textOf data = d ++ s := by
  refine ⟨_, ?_, textOf_append h.fits h.bytes hnul⟩
  intro hmem
  have hnonzero := List.mem_takeWhile_imp hmem
  simp at hnonzero

theorem Received.text_nul (h : Received data d) (hnul : 0 ∈ d) :
    textOf data = d.takeWhile (· ≠ 0) := by
  have hsplit := data.read_append 0 d.length (data.size - d.length)
  rw [Nat.add_sub_cancel' h.fits, h.bytes] at hsplit
  cases List.append_of_mem hnul with
  | intro a hb =>
      cases hb with
      | intro b hd =>
          rw [textOf, hsplit, hd, List.append_assoc, List.cons_append, takeWhile_append_nul,
            takeWhile_append_nul]

theorem bufferOf_end (text : Bytes) (x : UInt8) (size : Nat) :
    (bufferOf text x size).cell text.length = x := by
  show text.getD text.length x = x
  rw [List.getD_eq_getElem?_getD, List.getElem?_eq_none (Nat.le_refl _)]
  rfl

/-- Any text may stand behind the received bytes. -/
theorem received_bufferOf (d s : Bytes) :
    Received (bufferOf (d ++ s) 0 ((d ++ s).length + 1)) d := by
  have hread : (bufferOf (d ++ s) 0 ((d ++ s).length + 1)).read 0 d.length = d := by
    apply List.ext_getElem (Memory.read_length _ _ _)
    intro i hi hi'
    rw [Memory.getElem_read, Nat.zero_add]
    show (d ++ s).getD i 0 = d[i]
    rw [List.getD_eq_getElem?_getD, List.getElem?_append_left hi', List.getElem?_eq_getElem hi']
    rfl
  constructor
  · show d.length ≤ (d ++ s).length + 1
    rw [List.length_append]
    omega
  · exact hread
  · exact ⟨(d ++ s).length, Nat.lt_succ_self _, bufferOf_end _ _ _⟩

theorem textOf_bufferOf {text : Bytes} (hnul : 0 ∉ text) :
    textOf (bufferOf text 0 (text.length + 1)) = text := by
  have hreceived := received_bufferOf text []
  rw [List.append_nil] at hreceived
  have hterm := @textOf_terminated (bufferOf text 0 (text.length + 1)) text
    (Nat.lt_succ_self _) hreceived.bytes (bufferOf_end _ _ _)
  rw [hterm.1]
  apply List.takeWhile_eq_self_iff.mpr
  intro x hx
  have hne : x ≠ 0 := fun he => hnul (he ▸ hx)
  simpa using hne

/-- Only bytes that were received are reported when the text is made of them. -/
theorem checkText_le {text : Bytes} {data_len : Nat} (h : text.length ≤ data_len) :
    checkText text data_len ≤ data_len := by
  unfold checkText
  split
  · omega
  · cases hp : search CRLFCRLF text with
    | none =>
        dsimp only
        split <;> omega
    | some p =>
        cases search CONTENT_LENGTH text with
        | none =>
            have hfit : p + 4 ≤ text.length := search_fits hp
            dsimp only
            unfold toInt
            omega
        | some q => exact framed_le _ _ _

theorem net_complete_http_behind {s : Bytes} (hnul : 0 ∉ d ++ s) :
    net_complete_http (bufferOf (d ++ s) 0 ((d ++ s).length + 1)) d.length =
      .ok (checkText (d ++ s) d.length) := by
  have htext := textOf_bufferOf hnul
  have hterm := (received_bufferOf d s).terminated
  rw [net_complete_http_eq hterm, htext]

/-- Some text behind an incomplete header makes it a packet of five bytes. -/
theorem blank_line_behind (hlong : 14 ≤ d.length) (hp : search CRLFCRLF d = none) :
    ∃ s, 0 ∉ s ∧ checkText (d ++ s) d.length = 5 := by
  have hblank : ∀ k, search CRLFCRLF (d ++ 97 :: (List.replicate k 97 ++ CRLFCRLF)) =
      some (d.length + 1 + k) := by
    intro k
    have hfind := @search_append_of_not_mem UInt8 _ 13 [10, 13, 10] (List.replicate k 97) []
      (by simp)
    rw [List.append_nil, List.length_replicate] at hfind
    rw [search_skip (by decide) (search_eq_none_iff.mp hp), CRLFCRLF, hfind]
    rfl
  have hfree : ∀ k, 0 ∉ (97 : UInt8) :: (List.replicate k 97 ++ CRLFCRLF) := by
    intro k
    simp [CRLFCRLF]
  cases hq : search CONTENT_LENGTH d with
  | none =>
      have hnone : ∀ k, search CONTENT_LENGTH (d ++ 97 :: (List.replicate k 97 ++ CRLFCRLF)) =
          none := by
        intro k
        have hrest : search CONTENT_LENGTH (List.replicate k 97 ++ CRLFCRLF) = none :=
          search_eq_none_of_not_mem (by simp [CRLFCRLF])
        rw [search_skip (by decide) (search_eq_none_iff.mp hq), hrest]
        rfl
      refine ⟨_, hfree ((-(d.length : Int)) % 4294967296).toNat, ?_⟩
      rw [checkText, if_neg (by omega), hblank, hnone]
      simp only [toInt]
      omega
  | some q =>
      have hnumber : ∀ k, atoi ((d ++ 97 :: (List.replicate k 97 ++ CRLFCRLF)).drop (q + 15)) =
          atoi (d.drop (q + 15)) := by
        intro k
        have hfit : q + 15 ≤ d.length := search_fits hq
        rw [List.drop_append_of_le_length (by omega), atoi, atoi,
          strtol_append_stop (by decide) (by decide) (by decide) (by decide)]
      refine ⟨_, hfree ((-(d.length + atoi (d.drop (q + 15)) : Int)) % 4294967296).toNat, ?_⟩
      rw [checkText, if_neg (by omega), hblank, search_append_of_some hq]
      dsimp only
      rw [hnumber, framed, if_pos (by omega), toInt]
      omega

/-- A length behind a header without one is taken for its own. -/
theorem length_behind {p : Nat} (hlong : 14 ≤ d.length) (hlen : d.length < 4294967296)
    (hp : search CRLFCRLF d = some p) (hq : search CONTENT_LENGTH d = none) :
    ∃ s, 0 ∉ s ∧ checkText (d ++ s) d.length ≠ checkText d d.length := by
  have hfit : p + 4 ≤ d.length := search_fits hp
  refine ⟨32 :: (CONTENT_LENGTH ++ [49]), by decide, ?_⟩
  have hfind : search CONTENT_LENGTH (d ++ 32 :: (CONTENT_LENGTH ++ [49])) =
      some (d.length + 1) := by
    rw [search_skip (by decide) (search_eq_none_iff.mp hq),
      search_here (List.prefix_append CONTENT_LENGTH [49])]
    rfl
  have hdrop : (d ++ 32 :: (CONTENT_LENGTH ++ [49])).drop (d.length + 1 + 15) = [49] := by
    rw [Nat.add_assoc, List.drop_length_add_append]
    rfl
  have hone : atoi [49] = 1 := by decide
  have hboth : checkText (d ++ 32 :: (CONTENT_LENGTH ++ [49])) d.length = framed d.length p 1 := by
    rw [checkText, if_neg (by omega), search_append_of_some hp, hfind]
    dsimp only
    rw [hdrop, hone]
  have hself : checkText d d.length = toInt (p + 4) := by
    rw [checkText, if_neg (by omega), hp, hq]
  rw [hboth, hself, framed]
  unfold toInt
  split <;> omega

/-- When nothing behind the received bytes matters, the number in them is complete. -/
theorem settled_of_same (hlong : 14 ≤ d.length) (hlen : d.length < 4294967296)
    (hsame : ∀ s, 0 ∉ s → checkText (d ++ s) d.length = checkText d d.length) : Settled d := by
  cases hp : search CRLFCRLF d with
  | none =>
      cases blank_line_behind hlong hp with
      | intro s hs =>
          have hfive := hs.2.symm.trans (hsame s hs.1)
          rw [checkText, if_neg (by omega), hp] at hfive
          dsimp only at hfive
          split at hfive <;> omega
  | some p =>
      cases hq : search CONTENT_LENGTH d with
      | none =>
          cases length_behind hlong hlen hp hq with
          | intro s hs => exact absurd (hsame s hs.1) hs.2
      | some q =>
          refine ⟨p, q, hp, hq, ?_⟩
          have hfitp : p + 4 ≤ d.length := search_fits hp
          have hfitq : q + 15 ≤ d.length := search_fits hq
          have hframed : ∀ s, 0 ∉ s →
              framed d.length p (atoi (d.drop (q + 15) ++ s)) = checkText d d.length := by
            intro s hs
            rw [← hsame s hs, checkText, if_neg (by omega), search_append_of_some hp,
              search_append_of_some hq]
            dsimp only
            rw [List.drop_append_of_le_length (by omega)]
          -- a number close to zero leaves a packet, so that every number leaves the same one
          have hfixed : ∀ v s s', (v = 0 ∨ v = -1) → 0 ∉ s → 0 ∉ s' →
              atoi (d.drop (q + 15) ++ s) = v → atoi (d.drop (q + 15) ++ s') = v := by
            intro v s s' hv hs hs' hsv
            have hrange := atoi_range (d.drop (q + 15) ++ s')
            have heq := (hframed s hs).trans (hframed s' hs').symm
            rw [hsv] at heq
            generalize atoi (d.drop (q + 15) ++ s') = v' at heq hrange ⊢
            unfold framed toInt at heq
            dsimp only at heq
            split at heq <;> split at heq <;> omega
          intro s hs
          cases atoi_append_or (d.drop (q + 15)) with
          | inl hends => exact hends s
          | inr hnear =>
              have hnine : (0 : UInt8) ∉ List.replicate 19 57 := by decide
              have hv := hfixed _ _ s hnear.symm.symm hnine hs rfl
              have hv' := hfixed _ _ [] hnear hnine (by simp) rfl
              rw [List.append_nil] at hv'
              rw [hv, hv']

/-- Leftovers do not take part exactly when the message is too short to be looked at, when it
has a NUL, or when its header and the number in it are complete. -/
theorem stale_iff (hlen : d.length < 4294967296) :
    ((∀ data data', Received data d → Received data' d →
        net_complete_http data d.length = net_complete_http data' d.length) ∧
      ∀ data (n : Int), Received data d → net_complete_http data d.length = .ok n → 0 < n →
        n ≤ d.length) ↔
      d.length < 14 ∨ 0 ∈ d ∨ Settled d := by
  constructor
  · intro hall
    by_cases hlong : d.length < 14
    · exact .inl hlong
    by_cases hnul : 0 ∈ d
    · exact .inr (.inl hnul)
    right
    right
    apply settled_of_same (by omega) hlen
    intro s hs
    have hboth := hall.1 _ _ (received_bufferOf d s) (received_bufferOf d [])
    have hnul' : 0 ∉ d ++ s := by simp [hnul, hs]
    rw [net_complete_http_behind hnul', net_complete_http_behind (by simpa using hnul),
      List.append_nil] at hboth
    exact Except.ok.inj hboth
  · intro hcond
    have hresult : ∃ r : Int, r ≤ d.length ∧
        ∀ data, Received data d → net_complete_http data d.length = .ok r := by
      cases hcond with
      | inl hshort => exact ⟨0, by omega, fun data _ => net_complete_http_short hshort⟩
      | inr hcond =>
          by_cases hnul : 0 ∈ d
          · refine ⟨_, checkText_le (List.takeWhile_prefix (· ≠ 0)).length_le, fun data h => ?_⟩
            rw [net_complete_http_eq h.terminated, h.text_nul hnul]
          · obtain ⟨p, q, hp, hq, hends⟩ := hcond.resolve_left hnul
            have hfit : q + 15 ≤ d.length := search_fits hq
            refine ⟨framed d.length p (atoi (d.drop (q + 15))), framed_le _ _ _, ?_⟩
            intro data h
            cases h.text hnul with
            | intro s hs =>
                rw [net_complete_http_eq h.terminated, hs.2, checkText, if_neg (by omega),
                  search_append_of_some hp, search_append_of_some hq]
                dsimp only
                rw [List.drop_append_of_le_length (by omega), hends s hs.1]
    cases hresult with
    | intro r hr =>
        constructor
        · intro data data' h h'
          rw [hr.2 data h, hr.2 data' h']
        · intro data n h hn _
          rw [hr.2 data h] at hn
          cases hn
          exact hr.1

end Leftovers

theorem stale_iff_get :
    ((∀ data data', Received data (getLine ++ CRLFCRLF) → Received data' (getLine ++ CRLFCRLF) →
        net_complete_http data 18 = net_complete_http data' 18) ∧
      ∀ data (n : Int), Received data (getLine ++ CRLFCRLF) → net_complete_http data 18 = .ok n →
        0 < n → n ≤ 18) ↔
      18 < 14 ∨ 0 ∈ getLine ++ CRLFCRLF ∨ Settled (getLine ++ CRLFCRLF) :=
  stale_iff (d := getLine ++ CRLFCRLF) (by decide)

/-- The length in an earlier packet is taken for that of the request in front of it. -/
theorem reads_leftovers :
    ¬ ((∀ (d : Bytes) (data data' : Memory UInt8), d.length < 4294967296 → Received data d →
        Received data' d → net_complete_http data d.length = net_complete_http data' d.length) ∧
      ∀ (d : Bytes) (data : Memory UInt8) (n : Int), d.length < 4294967296 → Received data d →
        net_complete_http data d.length = .ok n → 0 < n → n ≤ d.length) := by
  intro hall
  have hsame := hall.1 (getLine ++ CRLFCRLF)
    (bufferOf (getLine ++ CRLFCRLF ++ postAfter) 0 44) (bufferOf (getLine ++ CRLFCRLF ++ []) 0 19)
    (by decide) (received_bufferOf _ _) (received_bufferOf _ _)
  exact absurd hsame (by decide +kernel)

end CommonCc
