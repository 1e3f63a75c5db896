import CommonCc.Lib.Sentinel
import CommonCc.TinyXml.Dom.Deletion

/-!
# The attributes of an element

`TiXmlAttributeSet` keeps the attributes in a ring through its sentinel, which stands at the
address 0.  Names and values that are passed are what `const char*` points at, without the null
byte.
-/

namespace CommonCc

namespace TinyXml

open Function (update)

structure TiXmlAttributeSet where
  fresh : Nat
  alive : Nat → Bool
  name : Nat → Bytes
  value : Nat → Bytes
  prev : Nat → Option Nat
  next : Nat → Option Nat

namespace TiXmlAttributeSet

/-- The set of a new element. -/
def new : TiXmlAttributeSet where
  fresh := 1
  alive x := x = 0
  name _ := []
  value _ := []
  prev x := if x = 0 then some 0 else none
  next x := if x = 0 then some 0 else none

/-- The attribute behind a pointer. -/
def deref (s : TiXmlAttributeSet) : Option Nat → Except Fault Nat
  | none => .error .outOfBounds
  | some x => if s.alive x then .ok x else .error .outOfBounds

/-- The loop of `Find`, whose names are compared by `strcmp`. -/
def findFrom (s : TiXmlAttributeSet) (name : Bytes) : Nat → Option Nat → Except Fault (Option Nat)
  | 0, node => if node = some 0 then .ok none else .error .diverges
  | fuel + 1, node => do
      if node = some 0 then .ok none
      else
        let x ← s.deref node
        if cstr (s.name x) = name then .ok (some x) else s.findFrom name fuel (s.next x)

/-- `TiXmlAttributeSet::Find`. -/
def Find (s : TiXmlAttributeSet) (name : Bytes) : Except Fault (Option Nat) :=
  s.findFrom name s.fresh (s.next 0)

/-- `TiXmlAttributeSet::Add`. -/
def Add (s : TiXmlAttributeSet) (addMe : Nat) : Except Fault TiXmlAttributeSet := do
  let x ← s.deref (some addMe)
  match ← s.Find (cstr (s.name x)) with
  | some _ => .error .assertion
  | none =>
      let s := { s with next := update s.next x (some 0), prev := update s.prev x (s.prev 0) }
      let last ← s.deref (s.prev 0)
      .ok { s with next := update s.next last (some x), prev := update s.prev 0 (some x) }

/-- The loop of `Remove`. -/
def removeFrom (s : TiXmlAttributeSet) (removeMe : Nat) :
    Nat → Option Nat → Except Fault TiXmlAttributeSet
  | 0, node => if node = some 0 then .error .assertion else .error .diverges
  | fuel + 1, node => do
      if node = some 0 then .error .assertion
      else
        let x ← s.deref node
        if x = removeMe then
          let before ← s.deref (s.prev x)
          let s := { s with next := update s.next before (s.next x) }
          let behind ← s.deref (s.next x)
          let s := { s with prev := update s.prev behind (s.prev x) }
          .ok { s with next := update s.next x none, prev := update s.prev x none }
        else s.removeFrom removeMe fuel (s.next x)

/-- `TiXmlAttributeSet::Remove`. -/
def Remove (s : TiXmlAttributeSet) (removeMe : Nat) : Except Fault TiXmlAttributeSet :=
  s.removeFrom removeMe s.fresh (s.next 0)

/-- `new TiXmlAttribute()`. -/
def create (s : TiXmlAttributeSet) : TiXmlAttributeSet where
  fresh := s.fresh + 1
  alive := update s.alive s.fresh true
  name := update s.name s.fresh []
  value := update s.value s.fresh []
  prev := update s.prev s.fresh none
  next := update s.next s.fresh none

/-- `TiXmlAttributeSet::FindOrCreate`.  The new attribute is added before it has its name. -/
def FindOrCreate (s : TiXmlAttributeSet) (name : Bytes) :
    Except Fault (Nat × TiXmlAttributeSet) := do
  match ← s.Find name with
  | some x => .ok (x, s)
  | none =>
      let added ← s.create.Add s.fresh
      .ok (s.fresh, { added with name := update added.name s.fresh name })

/-- `TiXmlElement::SetAttribute`. -/
def SetAttribute (s : TiXmlAttributeSet) (name value : Bytes) :
    Except Fault TiXmlAttributeSet := do
  let (x, s) ← s.FindOrCreate name
  .ok { s with value := update s.value x value }

/-- `TiXmlElement::Attribute`. -/
def Attribute (s : TiXmlAttributeSet) (name : Bytes) : Except Fault (Option Bytes) := do
  match ← s.Find name with
  | some x => .ok (some (cstr (s.value x)))
  | none => .ok none

/-- `TiXmlElement::RemoveAttribute`. -/
def RemoveAttribute (s : TiXmlAttributeSet) (name : Bytes) : Except Fault TiXmlAttributeSet := do
  match ← s.Find name with
  | some x => do
      let s ← s.Remove x
      .ok { s with alive := update s.alive x false }
  | none => .ok s

/-! ## The ring -/

variable {s : TiXmlAttributeSet} {xs ys as cs : List Nat} {x : Nat} {name value : Bytes}

/-- The ring holds the attributes `xs`, whose names are different. -/
structure Holds (s : TiXmlAttributeSet) (xs : List Nat) : Prop where
  ring : Ringed s.next s.prev 0 xs
  alive : ∀ x ∈ 0 :: xs, s.alive x = true
  lt : ∀ x ∈ 0 :: xs, x < s.fresh
  names : (xs.map s.name).Nodup
  text : ∀ x ∈ xs, s.name x ≠ [] ∧ cstr (s.name x) = s.name x ∧ cstr (s.value x) = s.value x

theorem deref_some (h : s.alive x = true) : s.deref (some x) = .ok x := by
  rw [deref, if_pos h]

theorem findFrom_spec {node : Option Nat} {fuel : Nat} (hleads : Leads s.next node ys 0)
    (hzero : 0 ∉ ys) (hfuel : ys.length ≤ fuel) (halive : ∀ x ∈ ys, s.alive x = true)
    (htext : ∀ x ∈ ys, cstr (s.name x) = s.name x) :
    s.findFrom name fuel node = .ok (ys.find? fun x => s.name x = name) := by
  induction ys generalizing node fuel with
  | nil =>
      have hnode : node = some 0 := hleads
      cases fuel with
      | zero => rw [findFrom, if_pos hnode, List.find?_nil]
      | succ fuel => rw [findFrom, if_pos hnode, List.find?_nil]
  | cons a ys ih =>
      obtain ⟨rfl, hrest⟩ := hleads
      have hne : (some a : Option Nat) ≠ some 0 := by
        intro he
        exact hzero (Option.some.inj he ▸ List.mem_cons_self)
      obtain ⟨k, rfl⟩ := Nat.exists_eq_add_one_of_ne_zero (Nat.ne_zero_of_lt hfuel)
      rw [findFrom, if_neg hne, deref_some (halive a List.mem_cons_self), except_ok_bind,
        htext a List.mem_cons_self, List.find?_cons]
      by_cases heq : s.name a = name
      · simp [heq]
      · simp only [heq, if_false, decide_false]
        apply ih hrest (fun hin => hzero (List.mem_cons_of_mem a hin))
          (Nat.le_of_succ_le_succ hfuel)
        · exact fun x hx => halive x (List.mem_cons_of_mem a hx)
        · exact fun x hx => htext x (List.mem_cons_of_mem a hx)

namespace Holds

theorem zero_not_mem (h : Holds s xs) : 0 ∉ xs := (List.nodup_cons.mp h.ring.nodup).1

theorem length_le (h : Holds s xs) : xs.length ≤ s.fresh :=
  length_le_of_nodup (List.nodup_cons.mp h.ring.nodup).2 fun x hx =>
    h.lt x (List.mem_cons_of_mem 0 hx)

theorem find_ok (h : Holds s xs) (name : Bytes) :
    s.Find name = .ok (xs.find? fun x => s.name x = name) :=
  findFrom_spec h.ring.forward h.zero_not_mem h.length_le
    (fun x hx => h.alive x (List.mem_cons_of_mem 0 hx)) fun x hx => (h.text x hx).2.1

theorem last_mem (l : List Nat) (a : Nat) : l.getLast?.getD a ∈ a :: l := by
  rcases l.eq_nil_or_concat with rfl | ⟨l, b, rfl⟩
  · exact List.mem_cons_self
  · simp

/-- The set with a new attribute that has no name yet. -/
def added (s : TiXmlAttributeSet) (last : Nat) : TiXmlAttributeSet :=
  { s.create with
    next := update (update s.create.next s.fresh (some 0)) last (some s.fresh)
    prev := update (update s.create.prev s.fresh (s.prev 0)) 0 (some s.fresh) }

theorem fresh_not_mem (h : Holds s xs) : s.fresh ∉ 0 :: xs :=
  fun hin => Nat.lt_irrefl _ (h.lt _ hin)

theorem ne_fresh (h : Holds s xs) (hx : x ∈ 0 :: xs) : x ≠ s.fresh :=
  fun he => h.fresh_not_mem (he ▸ hx)

/-- A new attribute is not linked yet. -/
theorem create_ring (h : Holds s xs) : Ringed s.create.next s.create.prev 0 xs := by
  apply h.ring.congr
  · exact fun x hx => Function.update_of_ne (h.ne_fresh hx) ..
  · exact fun x hx => Function.update_of_ne (h.ne_fresh hx) ..

theorem create_find (h : Holds s xs) : s.create.Find [] = .ok none := by
  have hname : ∀ x ∈ xs, s.create.name x = s.name x := fun x hx =>
    Function.update_of_ne (h.ne_fresh (List.mem_cons_of_mem 0 hx)) ..
  have hfind : s.create.Find [] = .ok (xs.find? fun x => s.create.name x = []) := by
    apply findFrom_spec h.create_ring.forward h.zero_not_mem (Nat.le_succ_of_le h.length_le)
    · intro x hx
      have hold : s.create.alive x = s.alive x :=
        Function.update_of_ne (h.ne_fresh (List.mem_cons_of_mem 0 hx)) ..
      rw [hold]
      exact h.alive x (List.mem_cons_of_mem 0 hx)
    · intro x hx
      rw [hname x hx]
      exact (h.text x hx).2.1
  rw [hfind]
  congr 1
  apply List.find?_eq_none.mpr
  intro x hx
  rw [hname x hx]
  simpa using (h.text x hx).1

theorem add_ok (h : Holds s xs) :
    s.create.Add s.fresh = .ok (added s (xs.getLast?.getD 0)) := by
  have hfresh : s.create.alive s.fresh = true := Function.update_self ..
  have hname : s.create.name s.fresh = [] := Function.update_self ..
  have hzero : (0 : Nat) ≠ s.fresh := h.ne_fresh List.mem_cons_self
  have hprev : s.create.prev 0 = s.prev 0 := Function.update_of_ne hzero ..
  have hlast : s.prev 0 = some (xs.getLast?.getD 0) := h.ring.last_eq
  have hmem := last_mem xs 0
  have halive : s.create.alive (xs.getLast?.getD 0) = true := by
    have hold : s.create.alive (xs.getLast?.getD 0) = s.alive (xs.getLast?.getD 0) :=
      Function.update_of_ne (h.ne_fresh hmem) ..
    rw [hold]
    exact h.alive _ hmem
  unfold Add
  rw [deref_some hfresh, except_ok_bind, hname]
  change (s.create.Find [] >>= _) = _
  rw [h.create_find, except_ok_bind]
  simp only [hprev, Function.update_of_ne hzero, hlast]
  have hderef : deref { s.create with
      next := update s.create.next s.fresh (some 0)
      prev := update s.create.prev s.fresh (some (xs.getLast?.getD 0)) }
      (some (xs.getLast?.getD 0)) = .ok (xs.getLast?.getD 0) := deref_some halive
  rw [hderef, except_ok_bind, added, hlast]

/-- The set without the links of an attribute. -/
def unlinked (s : TiXmlAttributeSet) (x before behind : Nat) : TiXmlAttributeSet :=
  { s with
    next := update (update s.next before (s.next x)) x none
    prev := update (update s.prev behind (s.prev x)) x none }

theorem removeFrom_spec (h : Holds s (as ++ x :: cs)) {ds : List Nat} {node : Option Nat}
    {fuel : Nat} (hleads : Leads s.next node (ds ++ x :: cs) 0) (hds : ∀ d ∈ ds, d ∈ as)
    (hfuel : (ds ++ x :: cs).length ≤ fuel) :
    s.removeFrom x fuel node = .ok (unlinked s x (as.getLast?.getD 0) (cs.head?.getD 0)) := by
  have hnodup := h.ring.nodup
  have hx : x ∈ as ++ x :: cs := by simp
  have hxzero : x ≠ 0 := fun he => h.zero_not_mem (he ▸ hx)
  have hsome : ∀ {a : Nat}, a ≠ 0 → (some a : Option Nat) ≠ some 0 :=
    fun hne he => hne (Option.some.inj he)
  have hpos : ∀ ds : List Nat, 0 < (ds ++ x :: cs).length := by
    intro ds
    simp
  obtain ⟨k, rfl⟩ := Nat.exists_eq_add_one_of_ne_zero
    (Nat.ne_zero_of_lt (Nat.lt_of_lt_of_le (hpos ds) hfuel))
  induction ds generalizing node k with
  | nil =>
      obtain ⟨rfl, _⟩ := hleads
      have hbefore := last_mem as 0
      have hbeforex : x ≠ as.getLast?.getD 0 := by
        intro he
        rw [← he] at hbefore
        rw [← List.cons_append] at hnodup
        exact (List.nodup_append.mp hnodup).2.2 x hbefore x List.mem_cons_self rfl
      have halive : s.alive (as.getLast?.getD 0) = true := by
        apply h.alive
        rw [← List.cons_append]
        exact List.mem_append_left _ hbefore
      have hbehind : s.alive (cs.head?.getD 0) = true := by
        cases cs with
        | nil => exact h.alive 0 List.mem_cons_self
        | cons c cs => exact h.alive c (by simp)
      have hxalive := h.alive x (List.mem_cons_of_mem 0 hx)
      rw [removeFrom, if_neg (hsome hxzero), deref_some hxalive, except_ok_bind, if_pos rfl,
        h.ring.prev_eq, deref_some halive, except_ok_bind]
      simp only [Function.update_of_ne hbeforex, h.ring.next_eq]
      rw [deref_some (by exact hbehind), except_ok_bind]
      simp only [unlinked, h.ring.prev_eq, h.ring.next_eq]
  | cons a ds ih =>
      obtain ⟨rfl, hrest⟩ := hleads
      have ha : a ∈ as := hds a List.mem_cons_self
      have hin : a ∈ as ++ x :: cs := List.mem_append_left _ ha
      have hne : a ≠ 0 := fun he => h.zero_not_mem (he ▸ hin)
      have hax : a ≠ x := by
        intro he
        have hrest := (List.nodup_cons.mp hnodup).2
        exact (List.nodup_append.mp hrest).2.2 a ha x List.mem_cons_self he
      have hshort : (ds ++ x :: cs).length ≤ k := Nat.le_of_succ_le_succ hfuel
      obtain ⟨j, rfl⟩ := Nat.exists_eq_add_one_of_ne_zero
        (Nat.ne_zero_of_lt (Nat.lt_of_lt_of_le (hpos ds) hshort))
      rw [removeFrom, if_neg (hsome hne), deref_some (h.alive a (List.mem_cons_of_mem 0 hin)),
        except_ok_bind, if_neg hax]
      exact ih hrest (fun d hd => hds d (List.mem_cons_of_mem a hd)) j hshort

theorem remove_ok (h : Holds s (as ++ x :: cs)) :
    s.Remove x = .ok (unlinked s x (as.getLast?.getD 0) (cs.head?.getD 0)) :=
  h.removeFrom_spec h.ring.forward (fun _ hd => hd) h.length_le

/-! ## The attributes -/

/-- What is set at an attribute of the ring. -/
theorem setValue (h : Holds s xs) (hx : x ∈ xs) (hvalue : cstr value = value) :
    Holds { s with value := update s.value x value } xs := by
  constructor
  · exact h.ring
  · exact h.alive
  · exact h.lt
  · exact h.names
  · intro y hy
    obtain ⟨hne, hname, htext⟩ := h.text y hy
    refine ⟨hne, hname, ?_⟩
    by_cases hyx : y = x
    · subst hyx
      simp only [Function.update_self]
      exact hvalue
    · simp only [Function.update_of_ne hyx]
      exact htext

/-- A new attribute with its name and value. -/
theorem create_holds (h : Holds s xs) (hnew : name ∉ xs.map s.name) (hne : name ≠ [])
    (hname : cstr name = name) (hvalue : cstr value = value) :
    Holds { added s (xs.getLast?.getD 0) with
      name := update (added s (xs.getLast?.getD 0)).name s.fresh name
      value := update (added s (xs.getLast?.getD 0)).value s.fresh value } (xs ++ [s.fresh]) := by
  have hold : ∀ x ∈ 0 :: xs, x ≠ s.fresh := fun x hx => h.ne_fresh hx
  have hprev : s.create.prev 0 = s.prev 0 :=
    Function.update_of_ne (hold 0 List.mem_cons_self) ..
  have hadd := h.create_ring.add h.fresh_not_mem
  rw [hprev] at hadd
  have hnames : ∀ x ∈ xs, update s.create.name s.fresh name x = s.name x := by
    intro x hx
    have hxne := hold x (List.mem_cons_of_mem 0 hx)
    rw [Function.update_of_ne hxne]
    exact Function.update_of_ne hxne ..
  constructor
  · exact hadd
  · intro x hx
    change update s.alive s.fresh true x = true
    by_cases hxf : x = s.fresh
    · rw [hxf, Function.update_self]
    · rw [Function.update_of_ne hxf]
      apply h.alive
      simpa [hxf] using hx
  · intro x hx
    change x < s.fresh + 1
    rcases List.mem_cons.mp hx with rfl | hin
    · exact Nat.succ_pos _
    · rcases List.mem_append.mp hin with hin | hin
      · exact Nat.lt_succ_of_lt (h.lt x (List.mem_cons_of_mem 0 hin))
      · rw [List.mem_singleton.mp hin]
        exact Nat.lt_succ_self _
  · change ((xs ++ [s.fresh]).map (update s.create.name s.fresh name)).Nodup
    rw [List.map_append, List.map_congr_left hnames, List.map_singleton, Function.update_self]
    apply List.nodup_append.mpr
    refine ⟨h.names, List.nodup_singleton _, ?_⟩
    intro y hy z hz he
    rw [List.mem_singleton.mp hz] at he
    exact hnew (he ▸ hy)
  · intro x hx
    change update s.create.name s.fresh name x ≠ [] ∧
      cstr (update s.create.name s.fresh name x) = update s.create.name s.fresh name x ∧
      cstr (update s.create.value s.fresh value x) = update s.create.value s.fresh value x
    rcases List.mem_append.mp hx with hin | hin
    · have hxne := hold x (List.mem_cons_of_mem 0 hin)
      have hval : update s.create.value s.fresh value x = s.value x := by
        rw [Function.update_of_ne hxne]
        exact Function.update_of_ne hxne ..
      rw [hnames x hin, hval]
      exact h.text x hin
    · rw [List.mem_singleton.mp hin, Function.update_self, Function.update_self]
      exact ⟨hne, hname, hvalue⟩

/-- The ring without an attribute, which is deleted. -/
theorem remove_holds (h : Holds s (as ++ x :: cs)) :
    Holds { unlinked s x (as.getLast?.getD 0) (cs.head?.getD 0) with
      alive := update s.alive x false } (as ++ cs) := by
  have hsub : (as ++ cs).Sublist (as ++ x :: cs) :=
    List.Sublist.append_left (List.sublist_cons_self x cs) as
  have hx : x ∈ as ++ x :: cs := by simp
  have hnodup := (List.nodup_cons.mp h.ring.nodup).2
  have hne : ∀ y ∈ 0 :: (as ++ cs), y ≠ x := by
    intro y hy he
    subst he
    rcases List.mem_cons.mp hy with rfl | hin
    · exact h.zero_not_mem hx
    · obtain ⟨_, hcs, hdisj⟩ := List.nodup_append.mp hnodup
      rcases List.mem_append.mp hin with hin | hin
      · exact hdisj y hin y List.mem_cons_self rfl
      · exact (List.nodup_cons.mp hcs).1 hin
  have hmem : ∀ y ∈ 0 :: (as ++ cs), y ∈ 0 :: (as ++ x :: cs) :=
    fun y hy => (hsub.cons_cons 0).subset hy
  constructor
  · exact h.ring.remove.congr (fun y hy => Function.update_of_ne (hne y hy) ..)
      fun y hy => Function.update_of_ne (hne y hy) ..
  · intro y hy
    simp only [Function.update_of_ne (hne y hy)]
    exact h.alive y (hmem y hy)
  · exact fun y hy => h.lt y (hmem y hy)
  · exact h.names.sublist (hsub.map s.name)
  · exact fun y hy => h.text y (hsub.subset hy)

end Holds

/-! ## Runs of calls -/

inductive Call where
  | setAttribute (name value : Bytes)
  | readAttribute (name : Bytes)
  | removeAttribute (name : Bytes)

/-- A call, and what it answers. -/
def call (s : TiXmlAttributeSet) : Call → Except Fault (Option Bytes × TiXmlAttributeSet)
  | .setAttribute name value => do
      let s ← s.SetAttribute name value
      .ok (none, s)
  | .readAttribute name => do
      let value ← s.Attribute name
      .ok (value, s)
  | .removeAttribute name => do
      let s ← s.RemoveAttribute name
      .ok (none, s)

/-- An attribute of the list gets the value, or a new one comes behind the others. -/
def setIn (l : List TiXmlAttribute) (name value : Bytes) : List TiXmlAttribute :=
  if l.any (·.name = name) then l.map fun a => if a.name = name then ⟨name, value⟩ else a
  else l ++ [⟨name, value⟩]

/-- What a call does to the attributes in their order. -/
def listCall (l : List TiXmlAttribute) : Call → Option Bytes × List TiXmlAttribute
  | .setAttribute name value => (none, setIn l name value)
  | .readAttribute name => ((l.find? (·.name = name)).map (·.value), l)
  | .removeAttribute name => (none, l.filter (·.name ≠ name))

/-- The text of a C string, and a name that is not empty where an attribute may get it. -/
def Call.Proper : Call → Prop
  | .setAttribute name value => name ≠ [] ∧ cstr name = name ∧ cstr value = value
  | _ => True

instance : DecidablePred Call.Proper
  | .setAttribute name value =>
      inferInstanceAs (Decidable (name ≠ [] ∧ cstr name = name ∧ cstr value = value))
  | .readAttribute _ => .isTrue trivial
  | .removeAttribute _ => .isTrue trivial

def attributeAt (s : TiXmlAttributeSet) (x : Nat) : TiXmlAttribute := ⟨s.name x, s.value x⟩

/-- The ring holds the attributes of the list, in its order. -/
def Lists (s : TiXmlAttributeSet) (l : List TiXmlAttribute) : Prop :=
  ∃ xs, s.Holds xs ∧ l = xs.map s.attributeAt

theorem lists_new : new.Lists [] := by
  refine ⟨[], ?_, rfl⟩
  constructor
  · exact ⟨List.nodup_singleton 0, rfl, rfl⟩
  · intro x hx
    rw [List.mem_singleton.mp hx]
    rfl
  · intro x hx
    rw [List.mem_singleton.mp hx]
    exact Nat.one_pos
  · exact List.nodup_nil
  · exact fun x hx => by cases hx

namespace Holds

/-- Only one attribute of the ring has the name of one of them. -/
theorem eq_of_name (h : Holds s xs) {y : Nat} (hx : x ∈ xs) (hy : y ∈ xs)
    (hname : s.name x = s.name y) : x = y :=
  List.inj_on_of_nodup_map h.names hx hy hname

theorem setAttribute_spec (h : Holds s xs) (hne : name ≠ []) (hname : cstr name = name)
    (hvalue : cstr value = value) :
    ∃ s', s.SetAttribute name value = .ok s' ∧
      s'.Lists (setIn (xs.map s.attributeAt) name value) := by
  unfold SetAttribute FindOrCreate
  rw [h.find_ok name, except_ok_bind]
  cases hfind : xs.find? fun x => s.name x = name with
  | some x =>
      have hx := List.mem_of_find?_eq_some hfind
      have heq : s.name x = name := by simpa using List.find?_some hfind
      refine ⟨_, rfl, xs, h.setValue hx hvalue, ?_⟩
      have hany : (xs.map s.attributeAt).any (·.name = name) = true := by
        rw [List.any_eq_true]
        exact ⟨s.attributeAt x, List.mem_map_of_mem hx, decide_eq_true heq⟩
      rw [setIn, if_pos hany, List.map_map]
      apply List.map_congr_left
      intro y hy
      by_cases hyx : y = x
      · subst hyx
        simp [attributeAt, heq]
      · have hother : s.name y ≠ name := fun he => hyx (h.eq_of_name hy hx (he.trans heq.symm))
        simp [attributeAt, hother, Function.update_of_ne hyx]
  | none =>
      have hnone : ∀ x ∈ xs, s.name x ≠ name := by
        intro x hx
        simpa using List.find?_eq_none.mp hfind x hx
      have hnew : name ∉ xs.map s.name := by
        intro hin
        obtain ⟨x, hx, he⟩ := List.mem_map.mp hin
        exact hnone x hx he
      have hholds := h.create_holds hnew hne hname hvalue
      simp only [h.add_ok, except_ok_bind]
      refine ⟨_, rfl, xs ++ [s.fresh], hholds, ?_⟩
      have hany : ¬ (xs.map s.attributeAt).any (·.name = name) = true := by
        rw [List.any_eq_true]
        intro hin
        obtain ⟨a, ha, he⟩ := hin
        obtain ⟨x, hx, rfl⟩ := List.mem_map.mp ha
        exact hnone x hx (of_decide_eq_true he)
      rw [setIn, if_neg hany, List.map_append, List.map_singleton]
      congr 1
      · apply List.map_congr_left
        intro y hy
        have hyf : y ≠ s.fresh := h.ne_fresh (List.mem_cons_of_mem 0 hy)
        simp [attributeAt, added, create, Function.update_of_ne hyf]
      · simp [attributeAt]

theorem attribute_spec (h : Holds s xs) (name : Bytes) :
    s.Attribute name =
      .ok (((xs.map s.attributeAt).find? (·.name = name)).map (·.value)) := by
  have hlist : (xs.map s.attributeAt).find? (·.name = name) =
      (xs.find? fun x => s.name x = name).map s.attributeAt := List.find?_map ..
  rw [Attribute, h.find_ok name, except_ok_bind, hlist]
  cases hfind : xs.find? fun x => s.name x = name with
  | none => rfl
  | some x =>
      have htext := (h.text x (List.mem_of_find?_eq_some hfind)).2.2
      simp [attributeAt, htext]

theorem removeAttribute_spec (h : Holds s xs) (name : Bytes) :
    ∃ s', s.RemoveAttribute name = .ok s' ∧
      s'.Lists ((xs.map s.attributeAt).filter (·.name ≠ name)) := by
  unfold RemoveAttribute
  rw [h.find_ok name, except_ok_bind]
  cases hfind : xs.find? fun x => s.name x = name with
  | none =>
      refine ⟨s, rfl, xs, h, ?_⟩
      apply List.filter_eq_self.mpr
      intro a ha
      obtain ⟨x, hx, rfl⟩ := List.mem_map.mp ha
      have hother : s.name x ≠ name := by simpa using List.find?_eq_none.mp hfind x hx
      simp [attributeAt, hother]
  | some x =>
      have hx := List.mem_of_find?_eq_some hfind
      have heq : s.name x = name := by simpa using List.find?_some hfind
      obtain ⟨as, cs, rfl⟩ := List.mem_iff_append.mp hx
      have hnodup := (List.nodup_cons.mp h.ring.nodup).2
      obtain ⟨_, hcs, hdisj⟩ := List.nodup_append.mp hnodup
      have hkept : ∀ l : List Nat, (∀ y ∈ l, y ∈ as ++ x :: cs ∧ y ≠ x) →
          (l.map s.attributeAt).filter (·.name ≠ name) = l.map s.attributeAt := by
        intro l hl
        apply List.filter_eq_self.mpr
        intro a ha
        obtain ⟨y, hy, rfl⟩ := List.mem_map.mp ha
        have hother : s.name y ≠ name := fun he =>
          (hl y hy).2 (h.eq_of_name (hl y hy).1 hx (he.trans heq.symm))
        simp [attributeAt, hother]
      have hfront := hkept as fun y hy =>
        ⟨List.mem_append_left _ hy, fun he => hdisj y hy x List.mem_cons_self he⟩
      have hback := hkept cs fun y hy =>
        ⟨by simp [hy], fun he => (List.nodup_cons.mp hcs).1 (he ▸ hy)⟩
      have hgone : ([x].map s.attributeAt).filter (·.name ≠ name) = [] := by
        simp [attributeAt, heq]
      simp only [h.remove_ok, except_ok_bind]
      refine ⟨_, rfl, as ++ cs, h.remove_holds, ?_⟩
      rw [← List.singleton_append, List.map_append, List.map_append, List.filter_append,
        List.filter_append, hfront, hback, hgone, List.nil_append, ← List.map_append]
      rfl

end Holds

theorem call_simulates : Simulates call listCall Lists Call.Proper := by
  intro s l c hlists hproper
  obtain ⟨xs, h, rfl⟩ := hlists
  cases c with
  | setAttribute name value =>
      obtain ⟨hne, hname, hvalue⟩ := hproper
      obtain ⟨s', hcall, hs'⟩ := h.setAttribute_spec hne hname hvalue
      refine ⟨s', ?_, hs'⟩
      rw [call, hcall, except_ok_bind]
      rfl
  | readAttribute name =>
      refine ⟨s, ?_, xs, h, rfl⟩
      rw [call, h.attribute_spec, except_ok_bind]
      rfl
  | removeAttribute name =>
      obtain ⟨s', hcall, hs'⟩ := h.removeAttribute_spec name
      refine ⟨s', ?_, hs'⟩
      rw [call, hcall, except_ok_bind]
      rfl

/-- Every run of calls answers as on a list of names and values in the order in which the names
came, and ends in a ring that holds that list. -/
theorem run_attributes (calls : List Call) (h : ∀ c ∈ calls, c.Proper) :
    ∃ s, runCalls call new calls = .ok ((runSpec listCall [] calls).1, s) ∧
      s.Lists (runSpec listCall [] calls).2 :=
  call_simulates.run lists_new h

theorem run_attributes_three :
    ∃ s, runCalls call new
        [.setAttribute (ascii ['a']) (ascii ['1']), .setAttribute (ascii ['b']) (ascii ['2']),
          .setAttribute (ascii ['a']) (ascii ['3']), .readAttribute (ascii ['a']),
          .removeAttribute (ascii ['a']), .readAttribute (ascii ['a'])] =
        .ok ([none, none, none, some (ascii ['3']), none, none], s) ∧
      s.Lists [⟨ascii ['b'], ascii ['2']⟩] :=
  run_attributes _ (by decide)

end TiXmlAttributeSet

end TinyXml

end CommonCc
