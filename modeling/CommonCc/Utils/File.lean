import CommonCc.Base
import CommonCc.Lib.FileTree

/-!
# `FileUtility::DeleteDir`

What `opendir` and `readdir` deliver is given: the names that the loop of a call sees, in their
order.
-/

namespace CommonCc

open FileTree

namespace FileUtility

/-! ## The functions -/

def c_str (path : Bytes) : Bytes := path.takeWhile (· ≠ 0)

def IsDir (fs : FileTree) (path : Bytes) : Bool := fs.isDir (c_str path)

/-- `snprintf(chBuf, 256, "%s/%s", ..)`. -/
def chBuf (path name : Bytes) : Bytes := (path ++ 47 :: name).take 255

/-- The loop of `DeleteDir`, where `delete` is the recursive call. -/
def deleteEntries (delete : FileTree → Bytes → FileTree × Except Fault Bool) (path : Bytes) :
    FileTree → List Bytes → FileTree × Except Fault Bool
  | fs, [] => (fs, .ok true)
  | fs, d_name :: names =>
      if d_name = DOT then deleteEntries delete path fs names
      else if d_name = DOTDOT then deleteEntries delete path fs names
      else if IsDir fs (chBuf path d_name) then
        match delete fs (chBuf path d_name) with
        | (fs, .ok true) => deleteEntries delete path fs names
        | stopped => stopped
      else
        match fs.remove (chBuf path d_name) with
        | some fs => deleteEntries delete path fs names
        | none => (fs, .ok false)

/-- The tree that a call leaves, and its result. -/
def DeleteDir (readdir : FileTree → Bytes → Option (List Bytes)) :
    Nat → FileTree → Bytes → FileTree × Except Fault Bool
  | 0, fs, _ => (fs, .error .diverges)
  | fuel + 1, fs, path =>
      if IsDir fs path = false then (fs, .ok false)
      else
        match readdir fs (c_str path) with
        | none => (fs, .ok false)
        | some names =>
            match deleteEntries (DeleteDir readdir fuel) (c_str path) fs names with
            | (fs, .ok true) =>
                match fs.remove (c_str path) with
                | some fs => (fs, .ok true)
                | none => (fs, .ok false)
            | stopped => stopped

/-! ## The entries that may go -/

/-- `readdir` delivers entries of the directory that it reads. -/
def ReadsEntries (readdir : FileTree → Bytes → Option (List Bytes)) : Prop :=
  ∀ fs path names, readdir fs path = some names → ∀ name ∈ names,
    ∃ d, fs.resolve path = some d ∧ (fs.lookup d name).isSome

/-- The directories at or below `root`, links not followed. -/
inductive InTree (fs : FileTree) (root : Nat) : Nat → Prop where
  | root : InTree fs root root
  | step {d i : Nat} {name : Bytes} : InTree fs root d → fs.lookup d name = some i →
      Proper name → fs.isDirNode i = true → InTree fs root i

/-- The entry `path` itself, and the entries of the tree below it. -/
def Allowed (fs : FileTree) (path : Bytes) (d : Nat) (name : Bytes) : Prop :=
  (∃ root, fs.resolve path = some root ∧ InTree fs root d ∧ Proper name) ∨
    fs.slot path = some (d, name)

/-- The directories of the tree, with the paths that the names on the way to them make up. -/
inductive Built (fs : FileTree) (path : Bytes) : Bytes → Nat → Prop where
  | root {d : Nat} : fs.resolve path = some d → Built fs path path d
  | step {q name : Bytes} {d i : Nat} : Built fs path q d → fs.lookup d name = some i →
      Proper name → fs.isDirNode i = true → Built fs path (q ++ 47 :: name) i

/-- Every child path fits in `chBuf`, and no link of the tree leads to a directory. -/
def Safe (fs : FileTree) (path : Bytes) : Prop :=
  ∀ q d name i, Built fs path q d → fs.lookup d name = some i → Proper name →
    (q ++ 47 :: name).length ≤ 255 ∧
      ∀ target, fs.node i = some (.link target) → fs.isDir (q ++ 47 :: name) = false

section Tree

variable {fs fs' : FileTree} {path q name : Bytes} {d i : Nat}

theorem Built.inTree (h : Built fs path q d) :
    ∃ root, fs.resolve path = some root ∧ InTree fs root d := by
  induction h with
  | root hd => exact ⟨_, hd, .root⟩
  | step _ hi hproper hdir ih =>
      cases ih with
      | intro root hroot => exact ⟨root, hroot.1, hroot.2.step hi hproper hdir⟩

/-- An entry of a directory of the tree may go. -/
theorem Built.allowed (h : Built fs path q d) (hproper : Proper name) : Allowed fs path d name := by
  cases h.inTree with
  | intro root hroot => exact .inl ⟨root, hroot.1, hroot.2, hproper⟩

theorem zero_notMem_child (hq : 0 ∉ q) (hi : fs.lookup d name = some i) : 0 ∉ q ++ 47 :: name := by
  rw [List.mem_append, List.mem_cons, not_or, not_or]
  exact ⟨hq, by decide, (validName_of_lookup hi).noNul⟩

theorem Built.zero_notMem (h : Built fs path q d) (hpath : 0 ∉ path) : 0 ∉ q := by
  induction h with
  | root _ => exact hpath
  | step _ hi _ _ ih => exact zero_notMem_child ih hi

theorem c_str_of_notMem {path : Bytes} (h : 0 ∉ path) : c_str path = path := by
  apply List.takeWhile_eq_self_iff.mpr
  intro c hc
  have hne : c ≠ 0 := fun h0 => h (h0 ▸ hc)
  exact decide_eq_true hne

theorem ne_of_isDirNode (h : fs.isDirNode i = true) (target : Bytes) :
    fs.node i ≠ some (.link target) := by
  intro hlink
  rw [FileTree.isDirNode, hlink] at h
  cases h

/-- The path made up for a directory leads there. -/
theorem Built.resolve (h : Built fs path q d) : fs.resolve q = some d := by
  induction h with
  | root hd => exact hd
  | step _ hi _ hdir ih =>
      rw [resolve_child (validName_of_lookup hi) (ne_nil_of_resolve ih), ih, Option.bind_some]
      exact follow_of_ne hi (ne_of_isDirNode hdir)

/-- The entry that a child path names is the one that was read. -/
theorem Built.slot (h : Built fs path q d) (hi : fs.lookup d name = some i) (hproper : Proper name) :
    fs.slot (q ++ 47 :: name) = some (d, name) := by
  rw [slot_child (validName_of_lookup hi) hproper (ne_nil_of_resolve h.resolve), h.resolve]
  rfl

end Tree

/-! ## A call inside the tree -/

section Call

variable {fs fs' : FileTree} {path q name : Bytes} {d i : Nat}

theorem chBuf_of_le (h : (q ++ 47 :: name).length ≤ 255) : chBuf q name = q ++ 47 :: name :=
  List.take_of_length_le h

/-- Where `IsDir` sends the recursion, there is a directory of the tree. -/
theorem Built.child (h : Built fs path q d) (hsafe : Safe fs path)
    (hleft : Within fs (Allowed fs path) fs') (hi : fs.lookup d name = some i)
    (hproper : Proper name) (hdir : fs'.isDir (q ++ 47 :: name) = true) :
    Built fs path (q ++ 47 :: name) i := by
  have hname := validName_of_lookup hi
  cases hleft.isDir hdir with
  | intro j hj =>
      -- the entry is no link, since the path of such a link is no directory
      have hne : ∀ target, fs.node i ≠ some (.link target) := by
        intro target hlink
        have hno := (hsafe q d name i h hi hproper).2 target hlink
        rw [FileTree.isDir, hj.1] at hno
        exact absurd (hj.2.symm.trans hno) (by decide)
      have hresolve : fs.resolve (q ++ 47 :: name) = some i := by
        rw [resolve_child hname (ne_nil_of_resolve h.resolve), h.resolve, Option.bind_some]
        exact follow_of_ne hi hne
      rw [hresolve] at hj
      have hij : i = j := Option.some.inj hj.1
      exact h.step hi hproper (hij ▸ hj.2)

/-- The last names of the paths of a call may go. -/
def MayGo (fs : FileTree) (path q : Bytes) : Prop :=
  ∀ d name, fs.slot q = some (d, name) → Allowed fs path d name

theorem mayGo_self (fs : FileTree) (path : Bytes) : MayGo fs path path :=
  fun _ _ hslot => .inr hslot

theorem Built.mayGo (h : Built fs path q d) (hi : fs.lookup d name = some i)
    (hproper : Proper name) : MayGo fs path (q ++ 47 :: name) := by
  intro d' name' hslot
  rw [h.slot hi hproper] at hslot
  cases hslot
  exact h.allowed hproper

theorem MayGo.remove {fs'' : FileTree} (h : MayGo fs path q)
    (hleft : Within fs (Allowed fs path) fs') (hremove : fs'.remove q = some fs'') :
    Within fs (Allowed fs path) fs'' :=
  hleft.trans (Within.remove hremove fun d name hslot => h d name (hleft.slot hslot))

/-- A recursive call that keeps to the tree. -/
def KeepsTo (fs : FileTree) (path : Bytes)
    (delete : FileTree → Bytes → FileTree × Except Fault Bool) : Prop :=
  ∀ fs' q d, Within fs (Allowed fs path) fs' → Built fs path q d → MayGo fs path q →
    Within fs (Allowed fs path) (delete fs' q).1

theorem deleteEntries_within {delete : FileTree → Bytes → FileTree × Except Fault Bool}
    (hdelete : KeepsTo fs path delete) (hsafe : Safe fs path) (hpath : 0 ∉ path)
    (h : Built fs path q d) {names : List Bytes} (hnames : ∀ name ∈ names, (fs.lookup d name).isSome)
    (hleft : Within fs (Allowed fs path) fs') :
    Within fs (Allowed fs path) (deleteEntries delete q fs' names).1 := by
  induction names generalizing fs' with
  | nil => exact hleft
  | cons name names ih =>
      have hrest : ∀ name ∈ names, (fs.lookup d name).isSome :=
        fun name hmem => hnames name (List.mem_cons_of_mem _ hmem)
      rw [deleteEntries]
      by_cases hdot : name = DOT
      · rw [if_pos hdot]
        exact ih hrest hleft
      by_cases hdotdot : name = DOTDOT
      · rw [if_neg hdot, if_pos hdotdot]
        exact ih hrest hleft
      rw [if_neg hdot, if_neg hdotdot]
      have hproper : Proper name := ⟨hdot, hdotdot⟩
      cases Option.isSome_iff_exists.mp (hnames name List.mem_cons_self) with
      | intro i hi =>
          have hmay := h.mayGo hi hproper
          have hzero : 0 ∉ q ++ 47 :: name := zero_notMem_child (h.zero_notMem hpath) hi
          rw [chBuf_of_le (hsafe q d name i h hi hproper).1]
          split
          · next hdir =>
            rw [IsDir, c_str_of_notMem hzero] at hdir
            have hcall := hdelete fs' _ i hleft (h.child hsafe hleft hi hproper hdir) hmay
            split
            · next fs'' hresult =>
              rw [hresult] at hcall
              exact ih hrest hcall
            · exact hcall
          · split
            · next fs'' hremove => exact ih hrest (hmay.remove hleft hremove)
            · exact hleft

theorem DeleteDir_keepsTo {readdir : FileTree → Bytes → Option (List Bytes)}
    (hreaddir : ReadsEntries readdir) (hsafe : Safe fs path) (hpath : 0 ∉ path) (fuel : Nat) :
    KeepsTo fs path (DeleteDir readdir fuel) := by
  induction fuel with
  | zero => exact fun fs' q d hleft _ _ => hleft
  | succ fuel ih =>
      intro fs' q d hleft h hmay
      rw [DeleteDir, c_str_of_notMem (h.zero_notMem hpath)]
      split
      · exact hleft
      split
      · exact hleft
      · next names hread =>
        have hnames : ∀ name ∈ names, (fs.lookup d name).isSome := by
          intro name hmem
          obtain ⟨d', hd', hsome⟩ := hreaddir fs' q names hread name hmem
          have heq : d = d' := Option.some.inj (h.resolve.symm.trans (hleft.resolve hd'))
          cases Option.isSome_iff_exists.mp hsome with
          | intro i hi => exact Option.isSome_iff_exists.mpr ⟨i, heq ▸ hleft.lookup hi⟩
        have hloop := deleteEntries_within ih hsafe hpath h hnames hleft
        split
        · next fs'' hresult =>
          rw [hresult] at hloop
          split
          · next last hremove => exact hmay.remove hloop hremove
          · exact hloop
        · exact hloop

/-- Where no link of the tree leads to a directory and every child path fits, a call removes
entries of the tree and nothing else. -/
theorem DeleteDir_within {readdir : FileTree → Bytes → Option (List Bytes)}
    (hreaddir : ReadsEntries readdir) (hsafe : Safe fs (c_str path)) (fuel : Nat) :
    Within fs (Allowed fs (c_str path)) (DeleteDir readdir fuel fs path).1 := by
  have hpath : 0 ∉ c_str path := by
    intro hmem
    have hne := List.mem_takeWhile_imp (show 0 ∈ path.takeWhile (· ≠ 0) from hmem)
    exact absurd rfl (of_decide_eq_true hne)
  have hself : c_str (c_str path) = c_str path := c_str_of_notMem hpath
  have hsame : DeleteDir readdir fuel fs path = DeleteDir readdir fuel fs (c_str path) := by
    cases fuel with
    | zero => rfl
    | succ fuel => rw [DeleteDir, DeleteDir, IsDir, IsDir, hself]
  rw [hsame]
  cases hd : fs.resolve (c_str path) with
  | some d =>
      exact DeleteDir_keepsTo hreaddir hsafe hpath fuel fs _ d (.refl _ _) (.root hd)
        (mayGo_self fs _)
  | none =>
      cases fuel with
      | zero => exact .refl _ _
      | succ fuel =>
          have hdir : IsDir fs (c_str path) = false := by
            rw [IsDir, hself, FileTree.isDir, hd]
          rw [DeleteDir, if_pos hdir]
          exact .refl _ _

end Call

/-- The entries of a directory in the order that they are kept. -/
def listed (fs : FileTree) (path : Bytes) : Option (List Bytes) :=
  match fs.resolve path with
  | none => none
  | some d =>
      match fs.node d with
      | some (.dir entries) => some (entries.map Prod.fst)
      | _ => none

theorem listed_readsEntries : ReadsEntries listed := by
  intro fs path names hnames name hname
  unfold listed at hnames
  split at hnames
  · cases hnames
  · next d hd =>
    split at hnames
    · next entries hnode =>
      cases hnames
      refine ⟨d, hd, ?_⟩
      rw [FileTree.lookup, hnode]
      exact isSome_findEntry.mpr hname
    · cases hnames

/-- The entry of a directory that has only one. -/
theorem sole_entry {fs : FileTree} {d parent self j i : Nat} {name sole : Bytes}
    (hnode : fs.node d = some (.dir [(DOT, self), (DOTDOT, parent), (sole, j)]))
    (h : fs.lookup d name = some i) (hproper : Proper name) : name = sole ∧ i = j := by
  obtain ⟨entries, hentries, hmem⟩ := mem_of_lookup h
  rw [hnode] at hentries
  cases hentries
  simpa [hproper.1, hproper.2] using hmem

instance (name : Bytes) : Decidable (ValidName name) :=
  decidable_of_iff (name ≠ [] ∧ 47 ∉ name ∧ 0 ∉ name)
    ⟨fun h => ⟨h.1, h.2.1, h.2.2⟩, fun h => ⟨h.ne_nil, h.noSlash, h.noNul⟩⟩

/-- The directory `/p` with the file `f` in it. -/
def plain : FileTree :=
  .ofList [.dir [([46], 0), ([46, 46], 0), ([112], 1)], .dir [([46], 1), ([46, 46], 0), ([102], 2)],
    .file] 0 0 40 (by decide)

theorem plain_built {q : Bytes} {d : Nat} (h : Built plain [47, 112] q d) :
    q = [47, 112] ∧ d = 1 := by
  induction h with
  | root hd => exact ⟨rfl, Option.some.inj (hd.symm.trans rfl)⟩
  | step _ hi hproper hdir ih =>
      cases ih.2
      cases (sole_entry rfl hi hproper).2
      cases hdir

theorem plain_safe : Safe plain [47, 112] := by
  intro q d name i h hi hproper
  cases plain_built h with
  | intro hq hd =>
      cases hq
      cases hd
      cases sole_entry rfl hi hproper with
      | intro hname hi =>
          cases hname
          cases hi
          exact ⟨by decide, fun target htarget => by cases htarget⟩

theorem DeleteDir_within_plain :
    Within plain (Allowed plain [47, 112]) (DeleteDir listed 2 plain [47, 112]).1 ∧
      (DeleteDir listed 2 plain [47, 112]).1.lookup 0 [112] = none :=
  ⟨@DeleteDir_within plain [47, 112] listed listed_readsEntries plain_safe 2, by decide +kernel⟩

/-- An existing directory that is no link. -/
def RealDir (fs : FileTree) (path : Bytes) : Prop :=
  ∃ d name i, fs.slot path = some (d, name) ∧ fs.lookup d name = some i ∧ fs.isDirNode i = true

/-- The directory `/p` with the link `l` to `/out`, where the file `f` is. -/
def linked : FileTree :=
  .ofList [.dir [([46], 0), ([46, 46], 0), ([112], 1), ([111, 117, 116], 2)],
    .dir [([46], 1), ([46, 46], 0), ([108], 3)], .dir [([46], 2), ([46, 46], 0), ([102], 4)],
    .link [47, 111, 117, 116], .file] 0 0 40 (by decide)

theorem linked_inTree {d : Nat} (h : InTree linked 1 d) : d = 1 := by
  induction h with
  | root => rfl
  | step _ hi hproper hdir ih =>
      cases ih
      cases (sole_entry rfl hi hproper).2
      cases hdir

/-- The file `/out/f` is deleted with `/p`. -/
theorem deletes_behind_link :
    ¬ ∀ readdir fs path, ReadsEntries readdir → RealDir fs path → ∀ fuel,
      Within fs (Allowed fs (c_str path)) (DeleteDir readdir fuel fs path).1 := by
  intro h
  have hleft := h listed linked [47, 112] listed_readsEntries
    ⟨0, [112], 1, by decide +kernel, by decide +kernel, by decide +kernel⟩ 3
  obtain ⟨entries, hentries, hfind⟩ := hleft.dir 2 _ rfl
  have hgone : (DeleteDir listed 3 linked [47, 112]).1.lookup 2 [102] = none := by decide +kernel
  rw [FileTree.lookup, hentries] at hgone
  cases hfind [102] with
  | inl hsame => exact absurd (hsame.symm.trans hgone) (by decide)
  | inr hallowed =>
      cases hallowed.2 with
      | inl htree =>
          obtain ⟨root, hroot, hin, -⟩ := htree
          have hone : root = 1 := Option.some.inj (hroot.symm.trans (by decide +kernel))
          cases hone
          exact absurd (linked_inTree hin) (by decide)
      | inr hslot => exact absurd hslot (by decide +kernel)

end FileUtility

end CommonCc
