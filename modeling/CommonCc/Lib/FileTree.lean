import Mathlib.Data.List.Basic
import Mathlib.Tactic.Common

/-!
# File trees

Directories, regular files and symbolic links, with the resolution of paths.  The entries of a
directory include `.` and `..`.  `Within` compares a tree with what is left of it after some
entries have been removed.
-/

namespace CommonCc

/-! ## Paths -/

/-- The names between the slashes of a path, where `name` has been read already. -/
def componentsFrom (name : List UInt8) : List UInt8 → List (List UInt8)
  | [] => if name = [] then [] else [name]
  | c :: path =>
      if c = 47 then (if name = [] then [] else [name]) ++ componentsFrom [] path
      else componentsFrom (name ++ [c]) path

def components (path : List UInt8) : List (List UInt8) := componentsFrom [] path

def DOT : List UInt8 := [46]

def DOTDOT : List UInt8 := [46, 46]

/-- A name that stands for no other directory. -/
def Proper (name : List UInt8) : Prop := name ≠ DOT ∧ name ≠ DOTDOT

instance (name : List UInt8) : Decidable (Proper name) := instDecidableAnd

/-- A name of an entry. -/
structure ValidName (name : List UInt8) : Prop where
  ne_nil : name ≠ []
  noSlash : 47 ∉ name
  noNul : 0 ∉ name

theorem componentsFrom_append {name : List UInt8} (h : ValidName name) (start path : List UInt8) :
    componentsFrom start (path ++ 47 :: name) = componentsFrom start path ++ [name] := by
  have hlast : ∀ acc s : List UInt8, 47 ∉ s → acc ++ s ≠ [] → componentsFrom acc s = [acc ++ s] := by
    intro acc s hs hne
    induction s generalizing acc with
    | nil =>
        rw [List.append_nil] at hne ⊢
        rw [componentsFrom, if_neg hne]
    | cons c s ih =>
        rw [List.mem_cons, not_or] at hs
        rw [componentsFrom, if_neg (Ne.symm hs.1), ih (acc ++ [c]) hs.2 (by simp), List.append_assoc,
          List.singleton_append]
  induction path generalizing start with
  | nil =>
      have hslash : componentsFrom start (47 :: name) =
          (if start = [] then [] else [start]) ++ componentsFrom [] name := if_pos rfl
      rw [List.nil_append, hslash, hlast [] name h.noSlash h.ne_nil, componentsFrom,
        List.nil_append]
  | cons c path ih =>
      rw [List.cons_append, componentsFrom, componentsFrom]
      split
      · rw [ih, List.append_assoc]
      · rw [ih]

theorem components_child {name : List UInt8} (h : ValidName name) (path : List UInt8) :
    components (path ++ 47 :: name) = components path ++ [name] :=
  componentsFrom_append h [] path

/-! ## Trees -/

inductive Node where
  | dir (entries : List (List UInt8 × Nat))
  | file
  | link (target : List UInt8)
deriving DecidableEq

def Node.entries : Node → List (List UInt8 × Nat)
  | .dir entries => entries
  | _ => []

def findEntry (entries : List (List UInt8 × Nat)) (name : List UInt8) : Option Nat :=
  (entries.find? fun e => e.1 = name).map Prod.snd

theorem mem_of_findEntry {entries : List (List UInt8 × Nat)} {name : List UInt8} {i : Nat}
    (h : findEntry entries name = some i) : (name, i) ∈ entries := by
  unfold findEntry at h
  cases hfind : entries.find? fun e => e.1 = name with
  | none => rw [hfind] at h; cases h
  | some e =>
      rw [hfind] at h
      have hname : e.1 = name := by simpa using List.find?_some hfind
      have hi : e.2 = i := Option.some.inj h
      have hmem := List.mem_of_find?_eq_some hfind
      rw [← hname, ← hi]
      exact hmem

theorem isSome_findEntry {entries : List (List UInt8 × Nat)} {name : List UInt8} :
    (findEntry entries name).isSome ↔ name ∈ entries.map Prod.fst := by
  simp [findEntry]

/-- Nodes by their numbers.  At most `linkMax` links are followed inside one another. -/
structure FileTree where
  node : Nat → Option Node
  root : Nat
  cwd : Nat
  linkMax : Nat
  names : ∀ i entries, node i = some (.dir entries) → ∀ e ∈ entries, ValidName e.1

namespace FileTree

/-- The tree of a list of nodes. -/
def ofList (nodes : List Node) (root cwd linkMax : Nat)
    (h : ∀ n ∈ nodes, ∀ e ∈ n.entries, ValidName e.1) : FileTree where
  node i := nodes[i]?
  root := root
  cwd := cwd
  linkMax := linkMax
  names _ _ hi e he := h _ (List.mem_of_getElem? hi) e he

def lookup (t : FileTree) (d : Nat) (name : List UInt8) : Option Nat :=
  match t.node d with
  | some (.dir entries) => findEntry entries name
  | _ => none

theorem mem_of_lookup {t : FileTree} {d i : Nat} {name : List UInt8} (h : t.lookup d name = some i) :
    ∃ entries, t.node d = some (.dir entries) ∧ (name, i) ∈ entries := by
  unfold lookup at h
  split at h
  · next entries hnode => exact ⟨entries, hnode, mem_of_findEntry h⟩
  · cases h

theorem validName_of_lookup {t : FileTree} {d i : Nat} {name : List UInt8}
    (h : t.lookup d name = some i) : ValidName name := by
  cases mem_of_lookup h with
  | intro entries hentries => exact t.names d entries hentries.1 _ hentries.2

/-- Where the resolution of a path starts that is met in the directory `d`. -/
def startAt (t : FileTree) (d : Nat) (path : List UInt8) : Nat :=
  if path.head? = some 47 then t.root else d

/-- The node `i` itself, and for a link what its target leads to. -/
def onLink (t : FileTree) (i : Nat) (jump : List UInt8 → Option Nat) : Option Nat :=
  match t.node i with
  | some (.link target) => jump target
  | _ => some i

/-- Follow names from a directory, and links to their targets. -/
def walk (t : FileTree) : Nat → Nat → List (List UInt8) → Option Nat
  | 0, _, _ => none
  | depth + 1, d, names =>
      names.foldlM (fun d name => (t.lookup d name).bind fun i =>
        t.onLink i fun target => walk t depth (t.startAt d target) (components target)) d

/-- The node of a path, with links followed. -/
def resolve (t : FileTree) (path : List UInt8) : Option Nat :=
  if path = [] then none
  else t.walk (t.linkMax + 1) (t.startAt t.cwd path) (components path)

def isDirNode (t : FileTree) (i : Nat) : Bool :=
  match t.node i with
  | some (.dir _) => true
  | _ => false

/-- `stat` finds a directory. -/
def isDir (t : FileTree) (path : List UInt8) : Bool :=
  match t.resolve path with
  | some i => t.isDirNode i
  | none => false

/-- The entry that a path names: a directory, and a name in it that is not followed. -/
def slot (t : FileTree) (path : List UInt8) : Option (Nat × List UInt8) :=
  match (components path).getLast? with
  | none => none
  | some name =>
      if Proper name then
        (t.walk (t.linkMax + 1) (t.startAt t.cwd path) (components path).dropLast).map (·, name)
      else none

def eraseNode (name : List UInt8) : Node → Node
  | .dir entries => .dir (entries.filter fun e => e.1 ≠ name)
  | n => n

def erase (t : FileTree) (d : Nat) (name : List UInt8) : FileTree :=
  { t with
    node := fun i => if i = d then (t.node i).map (eraseNode name) else t.node i
    names := by
      intro i entries h e he
      split at h
      · cases hnode : t.node i with
        | none => rw [hnode] at h; cases h
        | some n =>
            rw [hnode] at h
            cases n with
            | dir entries' =>
                cases h
                exact t.names i entries' hnode e (List.mem_of_mem_filter he)
            | file => cases h
            | link target => cases h
      · exact t.names i entries h e he }

/-- `remove`: a directory must be empty. -/
def remove (t : FileTree) (path : List UInt8) : Option FileTree :=
  match t.slot path with
  | none => none
  | some (d, name) =>
      match (t.lookup d name).bind t.node with
      | none => none
      | some (.dir entries) =>
          if ∀ e ∈ entries, ¬ Proper e.1 then some (t.erase d name) else none
      | some _ => if path.getLast? = some 47 then none else some (t.erase d name)

/-! ## Resolution step by step -/

section Steps

variable {t : FileTree} {path name : List UInt8}

/-- The node of an entry, with links followed. -/
def follow (t : FileTree) (d : Nat) (name : List UInt8) : Option Nat :=
  t.walk (t.linkMax + 1) d [name]

theorem onLink_of_link {i : Nat} {target : List UInt8} (h : t.node i = some (.link target))
    (jump : List UInt8 → Option Nat) : t.onLink i jump = jump target := by
  rw [onLink, h]

theorem onLink_of_ne {i : Nat} (h : ∀ target, t.node i ≠ some (.link target))
    (jump : List UInt8 → Option Nat) : t.onLink i jump = some i := by
  unfold onLink
  split
  · exact absurd (by assumption) (h _)
  · rfl

/-- An entry that is no link leads to itself. -/
theorem follow_of_ne {d i : Nat} (hi : t.lookup d name = some i)
    (h : ∀ target, t.node i ≠ some (.link target)) : t.follow d name = some i := by
  simp only [follow, walk, List.foldlM_cons, List.foldlM_nil, bind_pure, hi, Option.bind_some,
    onLink_of_ne h]

theorem ne_nil_of_resolve {i : Nat} (h : t.resolve path = some i) : path ≠ [] := by
  intro hnil
  rw [resolve, if_pos hnil] at h
  cases h

theorem startAt_append (hpath : path ≠ []) (s : List UInt8) (d : Nat) :
    t.startAt d (path ++ s) = t.startAt d path := by
  cases path with
  | nil => exact absurd rfl hpath
  | cons c path => rfl

/-- The path of an entry is that of its directory and then the entry. -/
theorem resolve_child (hname : ValidName name) (hpath : path ≠ []) :
    t.resolve (path ++ 47 :: name) = (t.resolve path).bind fun d => t.follow d name := by
  rw [resolve, resolve, if_neg hpath, if_neg (by simp), components_child hname,
    startAt_append hpath, walk, List.foldlM_append]
  rfl

theorem slot_child (hname : ValidName name) (hproper : Proper name) (hpath : path ≠ []) :
    t.slot (path ++ 47 :: name) = (t.resolve path).map (·, name) := by
  rw [slot, components_child hname, List.getLast?_concat]
  dsimp only
  rw [if_pos hproper, List.dropLast_concat, startAt_append hpath, resolve, if_neg hpath]

end Steps

/-! ## What is left of a tree -/

/-- `t'` is `t` without some of the `allowed` entries. -/
structure Within (t : FileTree) (allowed : Nat → List UInt8 → Prop) (t' : FileTree) : Prop where
  root : t'.root = t.root
  cwd : t'.cwd = t.cwd
  linkMax : t'.linkMax = t.linkMax
  dir : ∀ i entries, t.node i = some (.dir entries) → ∃ entries', t'.node i = some (.dir entries') ∧
    ∀ name, findEntry entries' name = findEntry entries name ∨
      (findEntry entries' name = none ∧ allowed i name)
  other : ∀ i, t.isDirNode i = false → t'.node i = t.node i

section Within

variable {t t' : FileTree} {allowed : Nat → List UInt8 → Prop}

theorem isDirNode_iff {i : Nat} : t.isDirNode i = true ↔ ∃ entries, t.node i = some (.dir entries) := by
  unfold isDirNode
  cases t.node i with
  | none => simp
  | some n => cases n <;> simp

theorem Within.refl (t : FileTree) (allowed : Nat → List UInt8 → Prop) : Within t allowed t where
  root := rfl
  cwd := rfl
  linkMax := rfl
  dir _ entries h := ⟨entries, h, fun _ => .inl rfl⟩
  other _ _ := rfl

theorem Within.isDirNode (h : Within t allowed t') (i : Nat) : t'.isDirNode i = t.isDirNode i := by
  cases hi : t.isDirNode i with
  | true =>
      cases isDirNode_iff.mp hi with
      | intro entries hentries =>
          cases h.dir i entries hentries with
          | intro entries' h' => exact isDirNode_iff.mpr ⟨entries', h'.1⟩
  | false =>
      unfold FileTree.isDirNode at hi ⊢
      rw [h.other i hi]
      exact hi

/-- Nodes that are no directories are as they were. -/
theorem Within.node_link (h : Within t allowed t') {i : Nat} {target : List UInt8} :
    t'.node i = some (.link target) ↔ t.node i = some (.link target) := by
  cases hi : t.isDirNode i with
  | true =>
      have hi' := (h.isDirNode i).trans hi
      cases isDirNode_iff.mp hi with
      | intro entries hentries =>
          cases isDirNode_iff.mp hi' with
          | intro entries' hentries' => simp [hentries, hentries']
  | false => rw [h.other i hi]

theorem Within.lookup (h : Within t allowed t') {d i : Nat} {name : List UInt8}
    (hi : t'.lookup d name = some i) : t.lookup d name = some i := by
  have hdir : t.isDirNode d = true := by
    cases mem_of_lookup hi with
    | intro entries hentries =>
        exact (h.isDirNode d).symm.trans (isDirNode_iff.mpr ⟨entries, hentries.1⟩)
  cases isDirNode_iff.mp hdir with
  | intro entries hentries =>
      obtain ⟨entries', hentries', hfind⟩ := h.dir d entries hentries
      unfold FileTree.lookup at hi ⊢
      rw [hentries'] at hi
      rw [hentries]
      cases hfind name with
      | inl hsame => exact hsame.symm.trans hi
      | inr hgone => exact absurd (hgone.1.symm.trans hi) (by simp)

theorem foldlM_of_steps {α β : Type} {f g : β → α → Option β}
    (h : ∀ b a r, f b a = some r → g b a = some r) {l : List α} {b r : β}
    (hl : l.foldlM f b = some r) : l.foldlM g b = some r := by
  induction l generalizing b with
  | nil => exact hl
  | cons a l ih =>
      rw [List.foldlM_cons] at hl ⊢
      cases hf : f b a with
      | none => rw [hf] at hl; cases hl
      | some b' =>
          rw [hf] at hl
          rw [h b a b' hf]
          exact ih hl

/-- What a path leads to in the smaller tree, it led to before. -/
theorem Within.walk (h : Within t allowed t') {depth d i : Nat} {names : List (List UInt8)}
    (hi : t'.walk depth d names = some i) : t.walk depth d names = some i := by
  induction depth generalizing d i names with
  | zero => cases hi
  | succ depth ih =>
      rw [FileTree.walk] at hi ⊢
      apply foldlM_of_steps _ hi
      intro d name r hr
      cases hlookup : t'.lookup d name with
      | none => rw [hlookup] at hr; cases hr
      | some j =>
          rw [hlookup, Option.bind_some] at hr
          rw [h.lookup hlookup, Option.bind_some]
          by_cases hlink : ∃ target, t.node j = some (.link target)
          · cases hlink with
            | intro target hlink =>
                rw [onLink_of_link (h.node_link.mpr hlink), startAt, h.root, ← startAt] at hr
                rw [onLink_of_link hlink]
                exact ih hr
          · rw [onLink_of_ne fun target ht => hlink ⟨target, h.node_link.mp ht⟩] at hr
            rw [onLink_of_ne fun target ht => hlink ⟨target, ht⟩]
            exact hr

theorem Within.startAt (h : Within t allowed t') (path : List UInt8) :
    t'.startAt t'.cwd path = t.startAt t.cwd path := by
  rw [FileTree.startAt, FileTree.startAt, h.root, h.cwd]

theorem Within.resolve (h : Within t allowed t') {path : List UInt8} {i : Nat}
    (hi : t'.resolve path = some i) : t.resolve path = some i := by
  unfold FileTree.resolve at hi ⊢
  split at hi
  · cases hi
  · rw [h.startAt, h.linkMax] at hi
    rw [if_neg (by assumption)]
    exact h.walk hi

theorem Within.isDir (h : Within t allowed t') {path : List UInt8} (hdir : t'.isDir path = true) :
    ∃ i, t.resolve path = some i ∧ t.isDirNode i = true := by
  unfold FileTree.isDir at hdir
  cases hi : t'.resolve path with
  | none => rw [hi] at hdir; cases hdir
  | some i =>
      rw [hi] at hdir
      exact ⟨i, h.resolve hi, (h.isDirNode i).symm.trans hdir⟩

theorem Within.slot (h : Within t allowed t') {path : List UInt8} {e : Nat × List UInt8}
    (he : t'.slot path = some e) : t.slot path = some e := by
  unfold FileTree.slot at he ⊢
  cases hlast : (components path).getLast? with
  | none => rw [hlast] at he; cases he
  | some name =>
      rw [hlast] at he
      dsimp only at he ⊢
      split at he
      · rw [if_pos (by assumption)]
        rw [h.startAt, h.linkMax] at he
        cases hwalk : t'.walk (t.linkMax + 1) (t.startAt t.cwd path) (components path).dropLast with
        | none => rw [hwalk] at he; cases he
        | some d =>
            rw [hwalk] at he
            rw [h.walk hwalk]
            exact he
      · cases he

theorem Within.trans {t'' : FileTree} (h : Within t allowed t') (h' : Within t' allowed t'') :
    Within t allowed t'' where
  root := h'.root.trans h.root
  cwd := h'.cwd.trans h.cwd
  linkMax := h'.linkMax.trans h.linkMax
  dir i entries hi := by
    obtain ⟨entries', hi', hfind⟩ := h.dir i entries hi
    obtain ⟨entries'', hi'', hfind'⟩ := h'.dir i entries' hi'
    refine ⟨entries'', hi'', fun name => ?_⟩
    cases hfind' name with
    | inr hgone => exact .inr hgone
    | inl hsame => rw [hsame]; exact hfind name
  other i hi := (h'.other i ((h.isDirNode i).trans hi)).trans (h.other i hi)

theorem findEntry_erase_self (entries : List (List UInt8 × Nat)) (name : List UInt8) :
    findEntry (entries.filter fun e => e.1 ≠ name) name = none := by
  rw [findEntry, List.find?_eq_none.mpr]
  · rfl
  · intro e he
    have hne := (List.mem_filter.mp he).2
    simpa using hne

theorem findEntry_erase_of_ne (entries : List (List UInt8 × Nat)) {name other : List UInt8}
    (h : other ≠ name) : findEntry (entries.filter fun e => e.1 ≠ name) other =
      findEntry entries other := by
  rw [findEntry, findEntry, List.find?_filter]
  congr 2
  funext e
  by_cases he : e.1 = other <;> simp [he, h]

/-- The removal of an entry changes that entry alone. -/
theorem Within.erase {d : Nat} {name : List UInt8} (h : allowed d name) :
    Within t allowed (t.erase d name) where
  root := rfl
  cwd := rfl
  linkMax := rfl
  dir i entries hi := by
    by_cases hd : i = d
    · cases hd
      refine ⟨entries.filter fun e => e.1 ≠ name, ?_, fun other => ?_⟩
      · rw [FileTree.erase]
        dsimp only
        rw [if_pos rfl, hi]
        rfl
      · by_cases hother : other = name
        · rw [hother]
          exact .inr ⟨findEntry_erase_self entries name, h⟩
        · exact .inl (findEntry_erase_of_ne entries hother)
    · refine ⟨entries, ?_, fun other => .inl rfl⟩
      rw [FileTree.erase]
      dsimp only
      rw [if_neg hd, hi]
  other i hi := by
    rw [FileTree.erase]
    dsimp only
    split
    · unfold FileTree.isDirNode at hi
      cases hnode : t.node i with
      | none => rfl
      | some n =>
          rw [hnode] at hi
          cases n with
          | dir entries => cases hi
          | file => rfl
          | link target => rfl
    · rfl

/-- `remove` takes at most the entry that its path names. -/
theorem Within.remove {path : List UInt8} (hremove : t.remove path = some t')
    (h : ∀ d name, t.slot path = some (d, name) → allowed d name) : Within t allowed t' := by
  unfold FileTree.remove at hremove
  cases hslot : t.slot path with
  | none => rw [hslot] at hremove; cases hremove
  | some e =>
      rw [hslot] at hremove
      dsimp only at hremove
      have herase : Within t allowed (t.erase e.1 e.2) := Within.erase (h e.1 e.2 hslot)
      split at hremove
      · cases hremove
      · split at hremove
        · cases hremove
          exact herase
        · cases hremove
      · split at hremove
        · cases hremove
        · cases hremove
          exact herase

end Within

end FileTree

end CommonCc
