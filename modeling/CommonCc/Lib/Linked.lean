import Mathlib.Logic.Function.Basic
import Mathlib.Data.List.Chain
import Mathlib.Data.List.Nodup

/-!
# Linked nodes

Two ways of keeping a list in nodes: a chain of `next` links that ends in a null
link, and a ring of `next` and `pre` links without an end.  Each comes with the
rules of its updates.
-/

namespace CommonCc

universe u

/-! ## Null-terminated chains -/

section Linked

variable {ι : Type u}

/-- From `cur` on, the links visit exactly the nodes `l`, then end. -/
def Linked (next : ι → Option ι) : Option ι → List ι → Prop
  | cur, [] => cur = none
  | cur, a :: l => cur = some a ∧ Linked next (next a) l

@[simp] theorem linked_nil (next : ι → Option ι) (cur : Option ι) :
    Linked next cur [] ↔ cur = none := Iff.rfl

@[simp] theorem linked_cons (next : ι → Option ι) (cur : Option ι) (a : ι) (l : List ι) :
    Linked next cur (a :: l) ↔ cur = some a ∧ Linked next (next a) l := Iff.rfl

theorem Linked.head {next : ι → Option ι} {cur : Option ι} {l : List ι}
    (h : Linked next cur l) : cur = l.head? := by
  cases l with
  | nil => exact h
  | cons a l => exact h.1

theorem Linked.from_head {next : ι → Option ι} {cur : Option ι} {l : List ι}
    (h : Linked next cur l) : Linked next l.head? l :=
  h.head ▸ h

/-- Only the links of the visited nodes matter. -/
theorem Linked.congr {next next' : ι → Option ι} {cur : Option ι} {l : List ι}
    (h : Linked next cur l) (heq : ∀ a ∈ l, next' a = next a) : Linked next' cur l := by
  induction l generalizing cur with
  | nil => exact h
  | cons a l ih =>
      refine ⟨h.1, ?_⟩
      rw [heq a List.mem_cons_self]
      exact ih h.2 fun b hb => heq b (List.mem_cons_of_mem a hb)

/-- The rest of a chain is a chain from its first node on. -/
theorem Linked.rest {next : ι → Option ι} {cur : Option ι} {as bs : List ι}
    (h : Linked next cur (as ++ bs)) : Linked next bs.head? bs := by
  induction as generalizing cur with
  | nil =>
      have hcur : cur = bs.head? := h.head
      rw [← hcur]
      exact h
  | cons a as ih => exact ih h.2

theorem Linked.next_eq {next : ι → Option ι} {cur : Option ι} {as bs : List ι} {a : ι}
    (h : Linked next cur (as ++ a :: bs)) : next a = bs.head? :=
  h.rest.2.head

/-- The link of the node at a position leads to the node behind it. -/
theorem Linked.next_getElem {next : ι → Option ι} {cur : Option ι} {l : List ι}
    (h : Linked next cur l) {k : Nat} {a : ι} (ha : l[k]? = some a) : next a = l[k + 1]? := by
  induction l generalizing cur k with
  | nil => cases ha
  | cons b l ih =>
      cases k with
      | zero =>
          cases ha
          rw [h.2.head, List.head?_eq_getElem?]
          rfl
      | succ k => exact ih h.2 ha

/-- A chain that goes on another way behind one of its nodes. -/
theorem Linked.turn {next next' : ι → Option ι} {cur : Option ι} {as bs cs : List ι} {a : ι}
    (h : Linked next cur (as ++ a :: bs)) (heq : ∀ x ∈ as, next' x = next x)
    (hcs : Linked next' (next' a) cs) : Linked next' cur (as ++ a :: cs) := by
  induction as generalizing cur with
  | nil => exact ⟨h.1, hcs⟩
  | cons x as ih =>
      refine ⟨h.1, ?_⟩
      rw [heq x List.mem_cons_self]
      exact ih h.2 fun y hy => heq y (List.mem_cons_of_mem x hy)

/-- The nodes met on at most `fuel` steps. -/
def followLinks (next : ι → Option ι) : Nat → Option ι → List ι
  | 0, _ => []
  | _ + 1, none => []
  | fuel + 1, some a => a :: followLinks next fuel (next a)

theorem Linked.follow {next : ι → Option ι} {cur : Option ι} {l : List ι} {fuel : Nat}
    (h : Linked next cur l) (hfuel : l.length ≤ fuel) : followLinks next fuel cur = l := by
  induction l generalizing cur fuel with
  | nil =>
      obtain rfl : cur = none := h
      cases fuel <;> rfl
  | cons a l ih =>
      obtain ⟨rfl, hrest⟩ := h
      cases fuel with
      | zero => simp at hfuel
      | succ fuel => rw [followLinks, ih hrest (by simpa using hfuel)]

/-- Redirect the link that follows `pre`, which is the head link when `pre` is null. -/
def linkHead (head pre dst : Option ι) : Option ι :=
  match pre with
  | none => dst
  | some _ => head

def linkNext [DecidableEq ι] (next : ι → Option ι) (pre dst : Option ι) : ι → Option ι :=
  match pre with
  | none => next
  | some p => Function.update next p dst

theorem linkNext_of_ne [DecidableEq ι] {next : ι → Option ι} {pre dst : Option ι} {a : ι}
    (h : ∀ p ∈ pre, a ≠ p) : linkNext next pre dst a = next a := by
  cases pre with
  | none => rfl
  | some p => exact Function.update_of_ne (h p rfl) _ _

/-- Redirecting the link after `as` replaces the rest of the chain. -/
theorem Linked.relink [DecidableEq ι] {next : ι → Option ι} {head dst : Option ι}
    {as bs cs : List ι} (h : Linked next head (as ++ bs)) (hdst : Linked next dst cs)
    (hnodup : (as ++ cs).Nodup) :
    Linked (linkNext next as.getLast? dst) (linkHead head as.getLast? dst) (as ++ cs) := by
  rcases as.eq_nil_or_concat with rfl | ⟨as, p, rfl⟩
  · exact hdst
  · simp only [List.concat_eq_append, List.append_assoc, List.cons_append,
      List.nil_append] at h hnodup ⊢
    simp only [List.getLast?_append, List.getLast?_singleton, Option.some_or, linkNext, linkHead]
    have hcs : Linked (Function.update next p dst) dst cs := by
      refine hdst.congr fun a ha => Function.update_of_ne ?_ _ _
      rintro rfl
      exact (List.nodup_append.mp hnodup).2.1.notMem ha
    refine h.turn ?_ (by rwa [Function.update_self])
    intro a ha
    refine Function.update_of_ne ?_ _ _
    rintro rfl
    exact (List.nodup_append.mp hnodup).2.2 a ha a List.mem_cons_self rfl

end Linked

/-! ## Rings -/

/-- The links of the nodes of a ring. -/
structure Links (ι : Type u) where
  pre : ι → ι
  next : ι → ι

namespace Links

variable {ι : Type u} [DecidableEq ι]

def setPre (L : Links ι) (a b : ι) : Links ι := { L with pre := Function.update L.pre a b }

def setNext (L : Links ι) (a b : ι) : Links ι := { L with next := Function.update L.next a b }

/-- Both links between two neighbours. -/
def Adjacent (L : Links ι) (a b : ι) : Prop := L.next a = b ∧ L.pre b = a

/-- Following `next` goes around `l` and `pre` goes back. -/
structure Cyclic (L : Links ι) (l : List ι) : Prop where
  chain : l.IsChain L.Adjacent
  seam : ∀ t ∈ l.getLast?, ∀ h ∈ l.head?, L.Adjacent t h

/-- Take `x` out of the ring and put it between `tail` and `head`. -/
def splice (L : Links ι) (x head tail : ι) : Links ι :=
  let L := L.setNext (L.pre x) (L.next x)
  let L := L.setPre (L.next x) (L.pre x)
  let L := L.setPre x tail
  let L := L.setNext x head
  let L := L.setNext tail x
  L.setPre head x

omit [DecidableEq ι] in
/-- The ring may be read from its second node on. -/
theorem Cyclic.rotate {L : Links ι} {x : ι} {l : List ι} (h : L.Cyclic (x :: l)) :
    L.Cyclic (l ++ [x]) := by
  cases l with
  | nil => exact h
  | cons y l =>
      obtain ⟨hxy, hl⟩ := List.isChain_cons_cons.mp h.chain
      refine ⟨List.isChain_append.mpr ⟨hl, List.isChain_singleton x, ?_⟩, ?_⟩
      · intro t ht u hu
        cases hu
        exact h.seam t (by simpa [List.getLast?_cons_cons] using ht) x rfl
      · intro t ht u hu
        obtain rfl : x = t := by simpa only [List.getLast?_concat, Option.mem_some] using ht
        obtain rfl : y = u := by simpa using hu
        exact hxy

omit [DecidableEq ι] in
/-- The ring may be read from its last node on. -/
theorem Cyclic.rotate_last {L : Links ι} {x : ι} {l : List ι} (h : L.Cyclic (l ++ [x])) :
    L.Cyclic (x :: l) := by
  cases l with
  | nil => exact h
  | cons y l =>
      obtain ⟨hl, -, hlast⟩ := List.isChain_append.mp h.chain
      refine ⟨List.isChain_cons_cons.mpr ⟨h.seam x List.getLast?_concat y rfl, hl⟩, ?_⟩
      intro t ht u hu
      obtain rfl : x = u := by simpa using hu
      exact hlast t (by simpa [List.getLast?_cons_cons] using ht) x rfl

omit [DecidableEq ι] in
/-- Following `next` as often as there are nodes visits them in order. -/
theorem Cyclic.iterate {L : Links ι} {h : ι} {l : List ι} (hl : L.Cyclic (h :: l)) :
    List.iterate L.next h (l.length + 1) = h :: l := by
  obtain ⟨hchain, -⟩ := hl
  induction l generalizing h with
  | nil => rfl
  | cons a l ih =>
      obtain ⟨hadj, hrest⟩ := List.isChain_cons_cons.mp hchain
      rw [List.length_cons, List.iterate, hadj.1, ih hrest]

omit [DecidableEq ι] in
/-- Every node of the ring has a neighbour in it. -/
theorem Cyclic.exists_adjacent {L : Links ι} {l : List ι} (hl : L.Cyclic l) {a : ι}
    (ha : a ∈ l) : ∃ b ∈ l, L.Adjacent a b := by
  obtain ⟨xs, ys, rfl⟩ := List.mem_iff_append.mp ha
  cases ys with
  | cons b ys =>
      exact ⟨b, by simp, (List.isChain_append_cons_cons.mp hl.chain).2.1⟩
  | nil =>
      obtain ⟨h, hh⟩ : ∃ h, (xs ++ [a]).head? = some h := by
        cases xs <;> simp
      exact ⟨h, List.mem_of_mem_head? hh, hl.seam a List.getLast?_concat h hh⟩

omit [DecidableEq ι] in
/-- Every node of the ring is a neighbour of some node of it. -/
theorem Cyclic.exists_adjacent_pre {L : Links ι} {l : List ι} (hl : L.Cyclic l) {b : ι}
    (hb : b ∈ l) : ∃ a ∈ l, L.Adjacent a b := by
  obtain ⟨xs, ys, rfl⟩ := List.mem_iff_append.mp hb
  rcases xs.eq_nil_or_concat with rfl | ⟨xs, a, rfl⟩
  · exact ⟨_, List.getLast_mem (List.cons_ne_nil b ys),
      hl.seam _ (List.getLast?_eq_some_getLast _) b rfl⟩
  · refine ⟨a, by simp, ?_⟩
    have hchain := hl.chain
    rw [List.concat_eq_append, List.append_assoc, List.singleton_append] at hchain
    exact (List.isChain_append_cons_cons.mp hchain).2.1

section Splice

variable {L : Links ι} {x head tail p n : ι}

theorem splice_next (hp : L.Adjacent p x) (hn : L.Adjacent x n) :
    (L.splice x head tail).next =
      Function.update (Function.update (Function.update L.next p n) x head) tail x := by
  simp [splice, setNext, setPre, hp.2, hn.1]

theorem splice_pre (hp : L.Adjacent p x) (hn : L.Adjacent x n) (hpx : p ≠ x) :
    (L.splice x head tail).pre =
      Function.update (Function.update (Function.update L.pre n p) x tail) head x := by
  simp [splice, setNext, setPre, hp.2, hn.1, Function.update_of_ne hpx.symm]

/-- A link that neither touches the moved node nor crosses the seam stays. -/
theorem Adjacent.splice {a b : ι} (h : L.Adjacent a b) (hp : L.Adjacent p x)
    (hn : L.Adjacent x n) (hpx : p ≠ x) (hseam : L.Adjacent tail head)
    (ha : a ≠ x) (hb : b ≠ x) (hcross : a ≠ tail ∨ b ≠ head) :
    (L.splice x head tail).Adjacent a b := by
  have hap : a ≠ p := by
    rintro rfl
    exact hb (h.1.symm.trans hp.1)
  have hbn : b ≠ n := by
    rintro rfl
    exact ha (h.2.symm.trans hn.2)
  have hat : a ≠ tail := by
    rintro rfl
    exact hcross.elim (fun hne => hne rfl) fun hne => hne (h.1.symm.trans hseam.1)
  have hbh : b ≠ head := by
    rintro rfl
    exact hat (h.2.symm.trans hseam.2)
  constructor
  · simp [splice_next hp hn, hap, ha, hat, h.1]
  · simp [splice_pre hp hn hpx, hbn, hb, hbh, h.2]

end Splice

/-- Splicing a node from inside the ring makes it the neighbour of both ends. -/
theorem Cyclic.splice {L : Links ι} {x head tail : ι} {xs ys : List ι}
    (h : L.Cyclic (xs ++ x :: ys)) (hnodup : (xs ++ x :: ys).Nodup)
    (hhead : head ∈ xs.head?) (htail : tail ∈ ys.getLast?) :
    (L.splice x head tail).Cyclic (xs ++ ys ++ [x]) := by
  obtain ⟨hxs, hxys, hlast⟩ := List.isChain_append.mp h.chain
  obtain ⟨hfirst, hys⟩ := List.isChain_cons.mp hxys
  obtain ⟨hnx, hxs', hys', hdisj⟩ : x ∉ ys ∧ x ∉ xs ∧ ys.Nodup ∧ ∀ a ∈ xs, a ∉ ys := by
    grind
  obtain ⟨p, hpl⟩ : ∃ p, p ∈ xs.getLast? := by
    cases xs with
    | nil => simp at hhead
    | cons a xs => exact ⟨_, List.getLast?_cons⟩
  obtain ⟨n, hnh⟩ : ∃ n, n ∈ ys.head? := by
    cases ys with
    | nil => simp at htail
    | cons a ys => exact ⟨a, rfl⟩
  have hseam : L.Adjacent tail head := by
    refine h.seam tail ?_ head (List.mem_head?_append_of_mem_head? hhead)
    rw [List.append_cons]
    exact List.mem_getLast?_append_of_mem_getLast? htail
  have hp : L.Adjacent p x := hlast p hpl x rfl
  have hn : L.Adjacent x n := hfirst n hnh
  have hpx : p ≠ x := fun e => hxs' (e ▸ List.mem_of_getLast? hpl)
  have hnx' : n ≠ x := fun e => hnx (e ▸ List.mem_of_mem_head? hnh)
  have hhx : head ≠ x := fun e => hxs' (e ▸ List.mem_of_mem_head? hhead)
  have htx : tail ≠ x := fun e => hnx (e ▸ List.mem_of_getLast? htail)
  have hpt : p ≠ tail := fun e =>
    hdisj p (List.mem_of_getLast? hpl) (e ▸ List.mem_of_getLast? htail)
  have hnh' : n ≠ head := fun e =>
    hdisj head (List.mem_of_mem_head? hhead) (e ▸ List.mem_of_mem_head? hnh)
  have hkeep : ∀ {a b}, L.Adjacent a b → a ≠ x → b ≠ x → (a ≠ tail ∨ b ≠ head) →
      (L.splice x head tail).Adjacent a b :=
    fun h ha hb hc => h.splice hp hn hpx hseam ha hb hc
  refine ⟨List.isChain_append.mpr ⟨List.isChain_append.mpr ⟨?_, ?_, ?_⟩,
    List.isChain_singleton x, ?_⟩, ?_⟩
  · refine hxs.imp_of_mem_imp fun a b ha hb hab => hkeep hab ?_ ?_ (.inl ?_)
    · exact fun e => hxs' (e ▸ ha)
    · exact fun e => hxs' (e ▸ hb)
    · exact fun e => hdisj a ha (e ▸ List.mem_of_getLast? htail)
  · refine hys.imp_of_mem_imp fun a b ha hb hab => hkeep hab ?_ ?_ (.inr ?_)
    · exact fun e => hnx (e ▸ ha)
    · exact fun e => hnx (e ▸ hb)
    · exact fun e => hdisj head (List.mem_of_mem_head? hhead) (e ▸ hb)
  · intro a ha b hb
    obtain rfl : p = a := Option.mem_unique hpl ha
    obtain rfl : n = b := Option.mem_unique hnh hb
    constructor
    · simp [splice_next hp hn, hpx, hpt]
    · simp [splice_pre hp hn hpx, hnx', hnh']
  · intro a ha b hb
    obtain rfl : x = b := by simpa using hb
    obtain rfl : tail = a :=
      Option.mem_unique (List.mem_getLast?_append_of_mem_getLast? htail) ha
    constructor
    · simp [splice_next hp hn]
    · simp [splice_pre hp hn hpx, hhx.symm]
  · intro a ha b hb
    obtain rfl : x = a := by simpa only [List.getLast?_concat, Option.mem_some] using ha
    obtain rfl : head = b := by
      refine Option.mem_unique ?_ hb
      rw [List.append_assoc]
      exact List.mem_head?_append_of_mem_head? hhead
    constructor
    · simp [splice_next hp hn, htx.symm]
    · simp [splice_pre hp hn hpx]

end Links

end CommonCc
