import CommonCc.TinyXml.Print
import Mathlib.Logic.Function.Basic

/-!
# The nodes in memory

The nodes by their addresses, with the pointers that link them.  A node that was deleted is not
`alive`, and what reads it or writes to it is a fault.
-/

namespace CommonCc

namespace TinyXml

/-- The types of `TiXmlNode`. -/
inductive DomType where
  | document
  | element
  | comment
  | unknown
  | text
  | declaration
deriving Repr, DecidableEq

/-- The fields of the nodes.  `fresh` is the address of the next new node, and `error` belongs
to the documents. -/
structure Dom where
  fresh : Nat
  alive : Nat → Bool
  type : Nat → DomType
  value : Nat → Bytes
  parent : Nat → Option Nat
  firstChild : Nat → Option Nat
  lastChild : Nat → Option Nat
  prev : Nat → Option Nat
  next : Nat → Option Nat
  error : Nat → Option TiXmlError

namespace Dom

open Function (update)

def empty : Dom :=
  ⟨0, fun _ => false, fun _ => .unknown, fun _ => [], fun _ => none, fun _ => none,
    fun _ => none, fun _ => none, fun _ => none, fun _ => none⟩

def check (d : Dom) (x : Nat) : Except Fault Unit :=
  if d.alive x then .ok () else .error .outOfBounds

/-- `assert`. -/
def assert (b : Bool) : Except Fault Unit := if b then .ok () else .error .assertion

/-! ## Writes -/

def setParent (d : Dom) (x : Nat) (p : Option Nat) : Except Fault Dom := do
  d.check x
  .ok { d with parent := update d.parent x p }

def setFirstChild (d : Dom) (x : Nat) (p : Option Nat) : Except Fault Dom := do
  d.check x
  .ok { d with firstChild := update d.firstChild x p }

def setLastChild (d : Dom) (x : Nat) (p : Option Nat) : Except Fault Dom := do
  d.check x
  .ok { d with lastChild := update d.lastChild x p }

def setPrev (d : Dom) (x : Nat) (p : Option Nat) : Except Fault Dom := do
  d.check x
  .ok { d with prev := update d.prev x p }

def setNext (d : Dom) (x : Nat) (p : Option Nat) : Except Fault Dom := do
  d.check x
  .ok { d with next := update d.next x p }

/-- `new` of a node: `TiXmlNode::TiXmlNode`. -/
def new (d : Dom) (type : DomType) (value : Bytes) : Nat × Dom :=
  (d.fresh, { d with
    fresh := d.fresh + 1
    alive := update d.alive d.fresh true
    type := update d.type d.fresh type
    value := update d.value d.fresh value
    parent := update d.parent d.fresh none
    firstChild := update d.firstChild d.fresh none
    lastChild := update d.lastChild d.fresh none
    prev := update d.prev d.fresh none
    next := update d.next d.fresh none
    error := update d.error d.fresh none })

/-! ## Deletion -/

/-- The loop of `~TiXmlNode`. -/
def deleteFrom (delete : Dom → Nat → Except Fault Dom) : Nat → Dom → Option Nat → Except Fault Dom
  | _, d, none => .ok d
  | 0, _, some _ => .error .diverges
  | width + 1, d, some node => do
      d.check node
      let next := d.next node
      let d ← delete d node
      deleteFrom delete width d next

/-- `delete` of a node, on at most `depth` levels. -/
def delete : Nat → Dom → Nat → Except Fault Dom
  | 0, _, _ => .error .diverges
  | depth + 1, d, x => do
      d.check x
      let d ← deleteFrom (delete depth) d.fresh d (d.firstChild x)
      .ok { d with alive := update d.alive x false }

/-- `TiXmlNode::Clear`. -/
def Clear (d : Dom) (this : Nat) : Except Fault Dom := do
  d.check this
  let d ← deleteFrom (delete d.fresh) d.fresh d (d.firstChild this)
  let d ← d.setFirstChild this none
  d.setLastChild this none

/-! ## Documents -/

/-- `TiXmlNode::GetDocument`, from a node on. -/
def GetDocument (d : Dom) : Nat → Option Nat → Except Fault (Option Nat)
  | _, none => .ok none
  | 0, some _ => .error .diverges
  | fuel + 1, some x => do
      d.check x
      if d.type x = .document then .ok (some x) else d.GetDocument fuel (d.parent x)

/-- A document that was to be a child sets the error of the document above. -/
def documentTopOnly (d : Dom) (this : Nat) : Except Fault Dom := do
  match ← d.GetDocument d.fresh (some this) with
  | none => .ok d
  | some doc => .ok { d with error := update d.error doc (SetError .documentTopOnly (d.error doc)) }

/-! ## Children

Where the source clones the node `addThis`, `node` is the clone, which has no parent yet. -/

/-- `TiXmlNode::LinkEndChild`. -/
def LinkEndChild (d : Dom) (this node : Nat) : Except Fault (Option Nat × Dom) := do
  d.check this
  d.check node
  assert (d.parent node = none || d.parent node = some this)
  let document ← d.GetDocument d.fresh (some node)
  if document ≠ none then
    assert (document = (← d.GetDocument d.fresh (some this)))
  if d.type node = .document then
    let d ← d.delete d.fresh node
    let d ← d.documentTopOnly this
    .ok (none, d)
  else
    let lastChild := d.lastChild this
    let d ← d.setParent node (some this)
    let d ← d.setPrev node lastChild
    let d ← d.setNext node none
    let d ← match lastChild with
      | some last => d.setNext last (some node)
      | none => d.setFirstChild this (some node)
    let d ← d.setLastChild this (some node)
    .ok (some node, d)

/-- `TiXmlNode::InsertBeforeChild`. -/
def InsertBeforeChild (d : Dom) (this : Nat) (beforeThis : Option Nat) (node : Nat) :
    Except Fault (Option Nat × Dom) := do
  match beforeThis with
  | none => .ok (none, d)
  | some before =>
      d.check before
      if d.parent before ≠ some this then .ok (none, d)
      else if d.type node = .document then
        let d ← d.documentTopOnly this
        .ok (none, d)
      else
        let d ← d.setParent node (some this)
        let d ← d.setNext node (some before)
        let prev := d.prev before
        let d ← d.setPrev node prev
        let d ← match prev with
          | some prev => d.setNext prev (some node)
          | none => do
              d.check this
              assert (d.firstChild this = some before)
              d.setFirstChild this (some node)
        let d ← d.setPrev before (some node)
        .ok (some node, d)

/-- `TiXmlNode::InsertAfterChild`. -/
def InsertAfterChild (d : Dom) (this : Nat) (afterThis : Option Nat) (node : Nat) :
    Except Fault (Option Nat × Dom) := do
  match afterThis with
  | none => .ok (none, d)
  | some after =>
      d.check after
      if d.parent after ≠ some this then .ok (none, d)
      else if d.type node = .document then
        let d ← d.documentTopOnly this
        .ok (none, d)
      else
        let d ← d.setParent node (some this)
        let d ← d.setPrev node (some after)
        let next := d.next after
        let d ← d.setNext node next
        let d ← match next with
          | some next => d.setPrev next (some node)
          | none => do
              d.check this
              assert (d.lastChild this = some after)
              d.setLastChild this (some node)
        let d ← d.setNext after (some node)
        .ok (some node, d)

/-- The neighbours of a child, or the ends of its parent, get a new neighbour on each side. -/
def relink (d : Dom) (this x : Nat) (before behind : Option Nat) : Except Fault Dom := do
  let d ← match d.next x with
    | some next => d.setPrev next before
    | none => d.setLastChild this before
  match d.prev x with
    | some prev => d.setNext prev behind
    | none => d.setFirstChild this behind

/-- `TiXmlNode::ReplaceChild`. -/
def ReplaceChild (d : Dom) (this : Nat) (replaceThis : Option Nat) (node : Nat) :
    Except Fault (Option Nat × Dom) := do
  match replaceThis with
  | none => .ok (none, d)
  | some replace =>
      d.check replace
      if d.parent replace ≠ some this then .ok (none, d)
      else if d.type node = .document then
        let d ← d.documentTopOnly this
        .ok (none, d)
      else
        let d ← d.setNext node (d.next replace)
        let d ← d.setPrev node (d.prev replace)
        let d ← d.relink this replace (some node) (some node)
        let d ← d.delete d.fresh replace
        let d ← d.setParent node (some this)
        .ok (some node, d)

/-- `TiXmlNode::RemoveChild`. -/
def RemoveChild (d : Dom) (this : Nat) (removeThis : Option Nat) : Except Fault (Bool × Dom) := do
  match removeThis with
  | none => .ok (false, d)
  | some remove =>
      d.check remove
      assert (d.parent remove = some this)
      let d ← d.relink this remove (d.prev remove) (d.next remove)
      let d ← d.delete d.fresh remove
      .ok (true, d)

/-! ## Searches -/

/-- The loops over the siblings for a node with a value, by `strcmp`. -/
def findFrom (d : Dom) (step : Nat → Option Nat) (value : Bytes) :
    Nat → Option Nat → Except Fault (Option Nat)
  | _, none => .ok none
  | 0, some _ => .error .diverges
  | fuel + 1, some node => do
      d.check node
      if cstr (d.value node) = cstr value then .ok (some node) else d.findFrom step value fuel (step node)

/-- `TiXmlNode::FirstChild`. -/
def FirstChild (d : Dom) (this : Nat) (value : Bytes) : Except Fault (Option Nat) := do
  d.check this
  d.findFrom d.next value d.fresh (d.firstChild this)

/-- `TiXmlNode::LastChild`. -/
def LastChild (d : Dom) (this : Nat) (value : Bytes) : Except Fault (Option Nat) := do
  d.check this
  d.findFrom d.prev value d.fresh (d.lastChild this)

/-- `TiXmlNode::NextSibling`. -/
def NextSibling (d : Dom) (this : Nat) (value : Bytes) : Except Fault (Option Nat) := do
  d.check this
  d.findFrom d.next value d.fresh (d.next this)

/-- `TiXmlNode::IterateChildren`. -/
def IterateChildren (d : Dom) (this : Nat) (value : Bytes) (previous : Option Nat) :
    Except Fault (Option Nat) := do
  match previous with
  | none => d.FirstChild this value
  | some previous =>
      d.check previous
      assert (d.parent previous = some this)
      d.NextSibling previous value

end Dom

end TinyXml

end CommonCc
