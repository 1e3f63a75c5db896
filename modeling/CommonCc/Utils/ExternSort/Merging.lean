import CommonCc.Lib.Merge
import CommonCc.Utils.ExternSort.Runs

/-!
# Merging the files

The readers that are open hold the heads of their runs, and the loop of `MergeSort` takes the
greatest of them.
-/

namespace CommonCc

namespace CBaseExternSort

variable {R : Type} [LinearOrder R] {p : SortPlatform R}

/-! ## Reading a record -/

theorem ReadFile_end (m_buffer : Memory UInt8) : ReadFile p m_buffer (some []) = .ok none := rfl

/-- A record is read when its item has room in the buffer. -/
theorem ReadFile_record_eq {s : R × Bytes} (hlen : s.2.length < 4294967296)
    (m_buffer : Memory UInt8) (rest : Bytes) :
    ReadFile p m_buffer (some (record p s ++ rest)) =
      if m_buffer.size < s.2.length then .error .outOfBounds
      else .ok (some (s, rest, m_buffer.write 0 s.2)) := by
  have hrecord : record p s ++ rest = p.bits s.1 ++ (u32Bytes s.2.length ++ (s.2 ++ rest)) := by
    rw [record, List.append_assoc, List.append_assoc]
  have hbits := p.bits_length s.1
  have hread : (m_buffer.write 0 s.2).read 0 s.2.length = s.2 := Memory.read_write_self _ _ _
  rw [hrecord, ReadFile]
  dsimp only
  rw [List.take_left' hbits, List.drop_left' hbits, List.take_left' (u32Bytes_length _),
    List.drop_left' (u32Bytes_length _), leValue_u32Bytes hlen, List.take_left' rfl,
    List.drop_left' rfl, hread, p.ofBits_bits, if_neg, if_neg]
  · rw [List.length_append, u32Bytes_length]
    omega
  · rw [List.length_append, hbits]
    omega

theorem ReadFile_record {s : R × Bytes} {m_buffer : Memory UInt8}
    (hbuffer : s.2.length ≤ m_buffer.size) (hlen : s.2.length < 4294967296) (rest : Bytes) :
    ReadFile p m_buffer (some (record p s ++ rest)) =
      .ok (some (s, rest, m_buffer.write 0 s.2)) := by
  rw [ReadFile_record_eq hlen, if_neg (Nat.not_lt.mpr hbuffer)]

/-! ## The readers -/

variable (p) in
/-- The reader is at the head of the run, or closed at its end. -/
def Reader.Has (reader : Reader R) (run : List (R × Bytes)) : Prop :=
  (reader.fp = none ∧ run = []) ∨
    ∃ rest, run = (reader.rank, reader.item) :: rest ∧ reader.fp = some (encode p rest)

/-- The items of the runs have room in the buffer. -/
def InBuffer (size : Nat) (runs : List (List (R × Bytes))) : Prop :=
  ∀ run ∈ runs, ∀ x ∈ run, x.2.length ≤ size ∧ x.2.length < 4294967296

variable (p) in
structure Reading (readers : List (Reader R)) (runs : List (List (R × Bytes))) : Prop where
  length : readers.length = runs.length
  has : ∀ (i : Nat) (reader : Reader R) (run : List (R × Bytes)), readers[i]? = some reader → runs[i]? = some run → reader.Has p run

section Readers

variable {readers : List (Reader R)} {runs : List (List (R × Bytes))} {reader : Reader R}
  {run : List (R × Bytes)} {i : Nat}

theorem Reading.nil : Reading p ([] : List (Reader R)) [] :=
  ⟨rfl, fun i reader run hi _ => absurd hi (by simp)⟩

theorem Reading.cons (h : Reading p readers runs) (hhas : reader.Has p run) :
    Reading p (reader :: readers) (run :: runs) where
  length := by rw [List.length_cons, List.length_cons, h.length]
  has i reader' run' hi hi' := by
    cases i with
    | zero =>
        cases hi
        cases hi'
        exact hhas
    | succ i => exact h.has i reader' run' hi hi'

theorem Reading.set (h : Reading p readers runs) (hhas : reader.Has p run) (k : Nat) :
    Reading p (readers.set k reader) (runs.set k run) where
  length := by rw [List.length_set, List.length_set, h.length]
  has i reader' run' hi hi' := by
    rw [List.getElem?_set] at hi hi'
    by_cases hk : k = i
    · rw [if_pos hk] at hi hi'
      split at hi
      · split at hi'
        · cases hi
          cases hi'
          exact hhas
        · cases hi'
      · cases hi
    · rw [if_neg hk] at hi hi'
      exact h.has i reader' run' hi hi'

/-- To each run there is its reader. -/
theorem Reading.exists_reader (h : Reading p readers runs) (hi : runs[i]? = some run) :
    ∃ reader, readers[i]? = some reader ∧ reader.Has p run := by
  have hlt : i < readers.length := by
    rw [h.length]
    exact (List.getElem?_eq_some_iff.mp hi).1
  exact ⟨_, List.getElem?_eq_getElem hlt, h.has i _ run (List.getElem?_eq_getElem hlt) hi⟩

theorem Reading.exists_run (h : Reading p readers runs) (hi : readers[i]? = some reader) :
    ∃ run, runs[i]? = some run ∧ reader.Has p run := by
  have hlt : i < runs.length := by
    rw [← h.length]
    exact (List.getElem?_eq_some_iff.mp hi).1
  exact ⟨_, List.getElem?_eq_getElem hlt, h.has i reader _ hi (List.getElem?_eq_getElem hlt)⟩

omit [LinearOrder R] in
theorem InBuffer.set {size : Nat} (h : InBuffer size runs) {a : R × Bytes}
    (hi : runs[i]? = some (a :: run)) : InBuffer size (runs.set i run) := by
  intro run' hrun' x hx
  cases List.mem_or_eq_of_mem_set hrun' with
  | inl hold => exact h run' hold x hx
  | inr hnew =>
      exact h _ (List.mem_of_getElem? hi) x (List.mem_cons_of_mem a (hnew ▸ hx))

/-- Every file is opened at the head of its run, when the buffer has room for the heads. -/
theorem openFiles_reading [Inhabited R] (m_buffer : Memory UInt8)
    (hheads : ∀ run ∈ runs, ∀ x ∈ run.head?,
      x.2.length ≤ m_buffer.size ∧ x.2.length < 4294967296)
    (hne : ∀ run ∈ runs, run ≠ []) :
    ∃ readers m_buffer', openFiles p m_buffer (runs.map (encode p)) = .ok (readers, m_buffer') ∧
      m_buffer'.size = m_buffer.size ∧ Reading p readers runs ∧
      ∀ reader ∈ readers, reader.fp.isSome = true := by
  induction runs generalizing m_buffer with
  | nil => exact ⟨[], m_buffer, rfl, rfl, .nil, fun reader h => absurd h List.not_mem_nil⟩
  | cons run runs ih =>
      cases run with
      | nil => exact absurd rfl (hne [] List.mem_cons_self)
      | cons x rest =>
          have hx := hheads _ List.mem_cons_self x rfl
          have hread := ReadFile_record (p := p) hx.1 hx.2 (encode p rest)
          obtain ⟨readers, m_buffer', hopen, hsize, hreading, hall⟩ :=
            ih (m_buffer.write 0 x.2)
              (fun r hr => hheads r (List.mem_cons_of_mem _ hr))
              fun r hr => hne r (List.mem_cons_of_mem _ hr)
          refine ⟨⟨some (encode p rest), x.1, x.2⟩ :: readers, m_buffer', ?_, hsize, ?_, ?_⟩
          · rw [List.map_cons, openFiles, encode, List.flatMap_cons]
            rw [show List.flatMap (record p) rest = encode p rest from rfl, hread]
            dsimp only
            rw [hopen]
          · exact hreading.cons (.inr ⟨rest, rfl, rfl⟩)
          · intro reader hreader
            cases List.mem_cons.mp hreader with
            | inl heq => rw [heq]; rfl
            | inr hmem => exact hall reader hmem

/-- All heads have been in the buffer when all files have been opened. -/
theorem openFiles_heads [Inhabited R] {m_buffer : Memory UInt8} {out : List (Reader R) × Memory UInt8}
    (hlt : ∀ run ∈ runs, ∀ x ∈ run, x.2.length < 4294967296)
    (h : openFiles p m_buffer (runs.map (encode p)) = .ok out) :
    ∀ run ∈ runs, ∀ x ∈ run.head?, x.2.length ≤ m_buffer.size := by
  induction runs generalizing m_buffer out with
  | nil => exact fun run hrun => absurd hrun List.not_mem_nil
  | cons run runs ih =>
      have hlt' := List.forall_mem_cons.mp hlt
      rw [List.map_cons, openFiles] at h
      cases run with
      | nil =>
          rw [show encode p [] = [] from rfl, ReadFile_end] at h
          dsimp only at h
          cases hrest : openFiles p m_buffer (runs.map (encode p)) with
          | error e =>
              rw [hrest] at h
              cases h
          | ok out' =>
              intro r hr y hy
              cases List.mem_cons.mp hr with
              | inl heq =>
                  rw [heq] at hy
                  cases hy
              | inr hmem => exact ih hlt'.2 hrest r hmem y hy
      | cons x rest =>
          rw [show encode p (x :: rest) = record p x ++ encode p rest from List.flatMap_cons,
            ReadFile_record_eq (hlt'.1 x List.mem_cons_self)] at h
          by_cases hsize : m_buffer.size < x.2.length
          · rw [if_pos hsize] at h
            cases h
          · rw [if_neg hsize] at h
            dsimp only at h
            cases hrest : openFiles p (m_buffer.write 0 x.2) (runs.map (encode p)) with
            | error e =>
                rw [hrest] at h
                cases h
            | ok out' =>
                intro r hr y hy
                cases List.mem_cons.mp hr with
                | inl heq =>
                    rw [heq] at hy
                    cases hy
                    exact Nat.le_of_not_lt hsize
                | inr hmem => exact ih hlt'.2 hrest r hmem y hy

end Readers

/-! ## The greatest head -/

/-- The reader at the index is open and has the rank. -/
def OpenAt (readers : List (Reader R)) (best : R × Nat) : Prop :=
  ∃ reader, readers[best.2]? = some reader ∧ reader.fp.isSome = true ∧ reader.rank = best.1

omit [LinearOrder R] in
/-- A scan from `i` on meets the reader at `i` and goes on after it. -/
theorem at_of_drop {all readers : List (Reader R)} {reader : Reader R} {i : Nat}
    (hdrop : all.drop i = reader :: readers) :
    all[i]? = some reader ∧ all.drop (i + 1) = readers := by
  constructor
  · have hhead := congrArg List.head? hdrop
    rwa [List.head?_drop] at hhead
  · rw [← List.drop_drop, hdrop]
    rfl

theorem findMax_spec {all : List (Reader R)} {readers : List (Reader R)} {i : Nat} {best : R × Nat}
    (hdrop : all.drop i = readers) (hbest : OpenAt all best) :
    OpenAt all (findMax readers i best) ∧ best.1 ≤ (findMax readers i best).1 ∧
      ∀ reader ∈ readers, reader.fp.isSome = true → reader.rank ≤ (findMax readers i best).1 := by
  induction readers generalizing i best with
  | nil => exact ⟨hbest, le_refl _, fun reader h => absurd h List.not_mem_nil⟩
  | cons reader readers ih =>
      obtain ⟨hat, hdrop'⟩ := at_of_drop hdrop
      rw [findMax]
      split
      · next hgreater =>
        have hthis : OpenAt all (reader.rank, i) := ⟨reader, hat, hgreater.1, rfl⟩
        obtain ⟨hopen, hle, hall⟩ := ih hdrop' hthis
        refine ⟨hopen, le_trans (le_of_lt hgreater.2) hle, fun r hr hopen' => ?_⟩
        cases List.mem_cons.mp hr with
        | inl heq => rw [heq]; exact hle
        | inr hmem => exact hall r hmem hopen'
      · next hnot =>
        obtain ⟨hopen, hle, hall⟩ := ih hdrop' hbest
        refine ⟨hopen, hle, fun r hr hopen' => ?_⟩
        cases List.mem_cons.mp hr with
        | inl heq =>
            rw [heq] at hopen' ⊢
            exact le_trans (le_of_not_gt fun hlt => hnot ⟨hopen', hlt⟩) hle
        | inr hmem => exact hall r hmem hopen'

omit [LinearOrder R] in
theorem firstOpen_none {readers : List (Reader R)} {j : Nat} (h : firstOpen readers j = none) :
    ∀ reader ∈ readers, reader.fp = none := by
  induction readers generalizing j with
  | nil => exact fun reader h => absurd h List.not_mem_nil
  | cons reader readers ih =>
      rw [firstOpen] at h
      split at h
      · cases h
      · next hclosed =>
        intro r hr
        cases List.mem_cons.mp hr with
        | inl heq => rw [heq]; exact Option.not_isSome_iff_eq_none.mp hclosed
        | inr hmem => exact ih h r hmem

omit [LinearOrder R] in
theorem firstOpen_some {all readers : List (Reader R)} {j : Nat} {best : R × Nat}
    (hdrop : all.drop j = readers) (h : firstOpen readers j = some best) : OpenAt all best := by
  induction readers generalizing j with
  | nil => cases h
  | cons reader readers ih =>
      obtain ⟨hat, hdrop'⟩ := at_of_drop hdrop
      rw [firstOpen] at h
      split at h
      · next hopen =>
        cases h
        exact ⟨reader, hat, hopen, rfl⟩
      · exact ih hdrop' h

/-! ## The loop -/

/-- Greater ranks come first. -/
def RankBefore (a b : R × Bytes) : Prop := b.1 ≤ a.1

section Loop

variable {readers : List (Reader R)} {runs : List (List (R × Bytes))}

/-- The reader at the index of `best` is at the head of its run. -/
theorem Reading.head {best : R × Nat} (h : Reading p readers runs) (hbest : OpenAt readers best) :
    ∃ reader rest, readers[best.2]? = some reader ∧ reader.rank = best.1 ∧
      runs[best.2]? = some ((reader.rank, reader.item) :: rest) ∧
      reader.fp = some (encode p rest) := by
  obtain ⟨reader, hat, hopen, hrank⟩ := hbest
  obtain ⟨run, hrun, hhas⟩ := h.exists_run hat
  cases hhas with
  | inl hclosed =>
      rw [hclosed.1] at hopen
      cases hopen
  | inr hhead =>
      obtain ⟨rest, rfl, hfp⟩ := hhead
      exact ⟨reader, rest, hat, hrank, hrun, hfp⟩

/-- A bound of the open readers' ranks is one of the runs' heads. -/
theorem Reading.head_le {a b : R × Bytes} {l : List (R × Bytes)} (h : Reading p readers runs)
    (hmax : ∀ reader ∈ readers, reader.fp.isSome = true → reader.rank ≤ a.1)
    (hmem : b :: l ∈ runs) : RankBefore a b := by
  obtain ⟨i, hi⟩ := List.getElem?_of_mem hmem
  obtain ⟨reader, hat, hhas⟩ := h.exists_reader hi
  cases hhas with
  | inl hclosed => cases hclosed.2
  | inr hhead =>
      obtain ⟨rest, heq, hfp⟩ := hhead
      cases heq
      exact hmax reader (List.mem_of_getElem? hat) (by rw [hfp]; rfl)

/-- When no reader is open the runs are used up. -/
theorem Reading.eq_nil {run : List (R × Bytes)} (h : Reading p readers runs)
    (hclosed : ∀ reader ∈ readers, reader.fp = none) (hrun : run ∈ runs) : run = [] := by
  obtain ⟨i, hi⟩ := List.getElem?_of_mem hrun
  obtain ⟨reader, hat, hhas⟩ := h.exists_reader hi
  have hnone := hclosed reader (List.mem_of_getElem? hat)
  cases hhas with
  | inl hend => exact hend.2
  | inr hhead =>
      obtain ⟨rest, -, hfp⟩ := hhead
      exact absurd (hnone.symm.trans hfp) (Option.some_ne_none _).symm

/-- The buffer after the next record of a file has been read, when there is one. -/
def afterRead (m_buffer : Memory UInt8) : List (R × Bytes) → Option (Memory UInt8)
  | [] => some m_buffer
  | y :: _ => m_buffer.store 0 y.2

/-- The next round of the loop, unless the record did not fit into the buffer. -/
def nextRound (p : SortPlatform R) (fuel : Nat) (readers : List (Reader R)) (best : R × Nat)
    (set : List (R × Bytes)) : Option (Memory UInt8) → Except Fault (List (R × Bytes))
  | none => .error .outOfBounds
  | some m_buffer => mergeLoop p fuel readers m_buffer best set

omit [LinearOrder R] in
theorem afterRead_some {m_buffer m_buffer' : Memory UInt8} {rest : List (R × Bytes)}
    (h : afterRead m_buffer rest = some m_buffer') :
    m_buffer'.size = m_buffer.size ∧ ∀ y ∈ rest.head?, y.2.length ≤ m_buffer.size := by
  cases rest with
  | nil =>
      cases h
      exact ⟨rfl, fun y hy => nomatch hy⟩
  | cons y rest =>
      by_cases hfit : 0 + y.2.length ≤ m_buffer.size
      · rw [afterRead, Memory.store_eq_some _ hfit] at h
        cases h
        refine ⟨rfl, fun z hz => ?_⟩
        cases hz
        rwa [Nat.zero_add] at hfit
      · rw [afterRead, Memory.store, if_neg hfit] at h
        cases h

omit [LinearOrder R] in
theorem afterRead_total (m_buffer : Memory UInt8) {rest : List (R × Bytes)}
    (h : ∀ y ∈ rest, y.2.length ≤ m_buffer.size) :
    ∃ m_buffer', afterRead m_buffer rest = some m_buffer' := by
  cases rest with
  | nil => exact ⟨m_buffer, rfl⟩
  | cons y rest =>
      have hfit : 0 + y.2.length ≤ m_buffer.size := by
        rw [Nat.zero_add]
        exact h y List.mem_cons_self
      exact ⟨_, Memory.store_eq_some _ hfit⟩

/-- The file of a reader is read on. -/
theorem ReadFile_afterRead (m_buffer : Memory UInt8) {y : R × Bytes} {rest : List (R × Bytes)}
    (hlen : y.2.length < 4294967296) :
    ReadFile p m_buffer (some (encode p (y :: rest))) =
      match afterRead m_buffer (y :: rest) with
      | none => .error .outOfBounds
      | some m_buffer => .ok (some (y, encode p rest, m_buffer)) := by
  rw [show encode p (y :: rest) = record p y ++ encode p rest from List.flatMap_cons,
    ReadFile_record_eq hlen, afterRead]
  by_cases hsize : m_buffer.size < y.2.length
  · rw [if_pos hsize, Memory.store, if_neg (by omega)]
  · rw [if_neg hsize, Memory.store_eq_some _ (by omega)]

/-- What a round does: it takes a head that no other head is before, and ends the loop or goes on
with the rest of that run. -/
theorem mergeLoop_round {best : R × Nat} (h : Reading p readers runs) (hbest : OpenAt readers best)
    (hlt : ∀ run ∈ runs, ∀ x ∈ run, x.2.length < 4294967296) :
    ∃ (i : Nat) (x : R × Bytes) (rest : List (R × Bytes)),
      runs[i]? = some (x :: rest) ∧ (∀ b l, b :: l ∈ runs → RankBefore x b) ∧
      ((rest = [] ∧ (∀ run ∈ runs.set i [], run = []) ∧ ∀ fuel m_buffer set,
          mergeLoop p (fuel + 1) readers m_buffer best set = .ok (set ++ [x])) ∨
        ∃ readers' best', Reading p readers' (runs.set i rest) ∧ OpenAt readers' best' ∧
          ∀ fuel m_buffer set, mergeLoop p (fuel + 1) readers m_buffer best set =
            nextRound p fuel readers' best' (set ++ [x]) (afterRead m_buffer rest)) := by
  obtain ⟨htop, -, hmax⟩ := findMax_spec (List.drop_zero) hbest
  have hloop : ∀ fuel m_buffer set, mergeLoop p (fuel + 1) readers m_buffer best set = _ :=
    fun fuel m_buffer set => mergeLoop.eq_2 p readers m_buffer best set fuel
  generalize findMax readers 0 best = top at htop hmax hloop
  obtain ⟨reader, rest, hat, hrank, hrun, hfp⟩ := h.head htop
  refine ⟨top.2, (reader.rank, reader.item), rest, hrun,
    fun b l => h.head_le fun r hr hopen => (hmax r hr hopen).trans_eq hrank.symm, ?_⟩
  cases rest with
  | nil =>
      -- The file is at its end and the reader is closed.
      have hclosed : Reading p (readers.set top.2 { reader with fp := none })
          (runs.set top.2 []) := h.set (.inl ⟨rfl, rfl⟩) top.2
      have hread : ∀ m_buffer, ReadFile p m_buffer reader.fp = .ok none := fun m_buffer => by
        rw [hfp]
        exact ReadFile_end m_buffer
      have hopen : reader.fp ≠ none := by
        rw [hfp]
        exact Option.some_ne_none _
      cases hnext : firstOpen (readers.set top.2 { reader with fp := none }) 0 with
      | none =>
          refine .inl ⟨rfl, fun run => hclosed.eq_nil (firstOpen_none hnext), ?_⟩
          intro fuel m_buffer set
          rw [hloop, hat]
          dsimp only
          rw [hread]
          dsimp only
          rw [if_neg hopen, hnext]
      | some best' =>
          refine .inr ⟨_, best', hclosed, firstOpen_some (List.drop_zero) hnext, ?_⟩
          intro fuel m_buffer set
          rw [hloop, hat]
          dsimp only
          rw [hread]
          dsimp only
          rw [if_neg hopen, hnext]
          rfl
  | cons y rest =>
      have hy := hlt _ (List.mem_of_getElem? hrun) y (List.mem_cons_of_mem _ List.mem_cons_self)
      have hnext : Reading p (readers.set top.2 ⟨some (encode p rest), y.1, y.2⟩)
          (runs.set top.2 (y :: rest)) := h.set (.inr ⟨rest, rfl, rfl⟩) top.2
      have htop' : top.2 < readers.length := (List.getElem?_eq_some_iff.mp hat).1
      refine .inr ⟨_, (y.1, top.2), hnext, ⟨_, List.getElem?_set_self htop', rfl, rfl⟩, ?_⟩
      intro fuel m_buffer set
      rw [hloop, hat]
      dsimp only
      rw [hfp, ReadFile_afterRead m_buffer hy]
      cases afterRead m_buffer (y :: rest) <;> rfl

/-- `MergeSort` writes a merge of the runs. -/
theorem mergeLoop_merges {fuel : Nat} {m_buffer : Memory UInt8} {best : R × Nat}
    (h : Reading p readers runs) (hbuffer : InBuffer m_buffer.size runs)
    (hbest : OpenAt readers best) (hfuel : runs.flatten.length ≤ fuel) (set : List (R × Bytes)) :
    ∃ out, mergeLoop p fuel readers m_buffer best set = .ok (set ++ out) ∧
      Merges RankBefore runs out := by
  induction fuel generalizing readers runs m_buffer best set with
  | zero =>
      -- An open reader still has a record.
      obtain ⟨reader, rest, -, -, hrun, -⟩ := h.head hbest
      have hlen := (flatten_set_perm hrun).length_eq
      rw [List.length_cons] at hlen
      omega
  | succ fuel ih =>
      obtain ⟨i, x, rest, hrun, hfirst, hround⟩ :=
        mergeLoop_round h hbest fun run hmem x hx => (hbuffer run hmem x hx).2
      rcases hround with ⟨rfl, hdone, hloop⟩ | ⟨readers', best', hnext, hbest', hloop⟩
      · exact ⟨[x], hloop fuel m_buffer set, .take hrun hfirst (.done hdone)⟩
      · obtain ⟨m_buffer', hread⟩ := afterRead_total m_buffer fun y hy =>
          (hbuffer _ (List.mem_of_getElem? hrun) y (List.mem_cons_of_mem x hy)).1
        have hbuffer' : InBuffer m_buffer'.size (runs.set i rest) := by
          rw [(afterRead_some hread).1]
          exact hbuffer.set hrun
        have hlen := (flatten_set_perm hrun).length_eq
        rw [List.length_cons] at hlen
        obtain ⟨out, hout, hmerges⟩ := ih hnext hbuffer' hbest' (by omega) (set ++ [x])
        refine ⟨x :: out, ?_, .take hrun hfirst hmerges⟩
        rw [hloop, hread, nextRound, hout, List.append_assoc, List.singleton_append]

omit [LinearOrder R] in
/-- The tails fit, when the records after the heads fit and the tails do after a step. -/
theorem forall_tail_of_set {P : R × Bytes → Prop} {i : Nat} {x : R × Bytes}
    {rest : List (R × Bytes)} (hrun : runs[i]? = some (x :: rest)) (hhead : ∀ y ∈ rest.head?, P y)
    (h : ∀ run ∈ runs.set i rest, ∀ y ∈ run.tail, P y) : ∀ run ∈ runs, ∀ y ∈ run.tail, P y := by
  have hrest : rest ∈ runs.set i rest :=
    List.mem_of_getElem? (List.getElem?_set_self (List.getElem?_eq_some_iff.mp hrun).1)
  intro run hmem y hy
  obtain ⟨j, hj⟩ := List.getElem?_of_mem hmem
  by_cases hij : i = j
  · rw [← hij, hrun] at hj
    cases hj
    cases rest with
    | nil => cases hy
    | cons z rest =>
        cases List.mem_cons.mp hy with
        | inl heq => exact hhead y (by rw [heq]; rfl)
        | inr htail => exact h _ hrest y htail
  · have hsame : (runs.set i rest)[j]? = some run := by rw [List.getElem?_set_ne hij, hj]
    exact h run (List.mem_of_getElem? hsame) y hy

/-- A record that is read in the loop has been in the buffer. -/
theorem mergeLoop_tails {fuel : Nat} {m_buffer : Memory UInt8} {best : R × Nat}
    {set out : List (R × Bytes)} (h : Reading p readers runs)
    (hlt : ∀ run ∈ runs, ∀ x ∈ run, x.2.length < 4294967296) (hbest : OpenAt readers best)
    (hloop : mergeLoop p fuel readers m_buffer best set = .ok out) :
    ∀ run ∈ runs, ∀ x ∈ run.tail, x.2.length ≤ m_buffer.size := by
  induction fuel generalizing readers runs m_buffer best set with
  | zero => cases hloop
  | succ fuel ih =>
      obtain ⟨i, x, rest, hrun, -, hround⟩ := mergeLoop_round h hbest hlt
      rcases hround with ⟨rfl, hdone, -⟩ | ⟨readers', best', hnext, hbest', hround⟩
      · refine forall_tail_of_set hrun (fun y hy => nomatch hy) fun run hmem y hy => ?_
        rw [hdone run hmem] at hy
        cases hy
      · rw [hround] at hloop
        cases hread : afterRead m_buffer rest with
        | none =>
            rw [hread] at hloop
            cases hloop
        | some m_buffer' =>
            rw [hread] at hloop
            obtain ⟨hsize, hhead⟩ := afterRead_some hread
            have hlt' : ∀ run ∈ runs.set i rest, ∀ x ∈ run, x.2.length < 4294967296 := by
              intro run hmem y hy
              cases List.mem_or_eq_of_mem_set hmem with
              | inl hold => exact hlt run hold y hy
              | inr hnew =>
                  rw [hnew] at hy
                  exact hlt _ (List.mem_of_getElem? hrun) y (List.mem_cons_of_mem _ hy)
            have htails := ih hnext hlt' hbest' hloop
            rw [hsize] at htails
            exact forall_tail_of_set hrun hhead htails

end Loop

end CBaseExternSort

end CommonCc
