import Mathlib.Order.Defs.LinearOrder
import Mathlib.Logic.Function.Basic
import Dragonfly.Lib.Enough
import Dragonfly.Lib.Redblack

/-!
# The red-black trees of `sys/tree.h`

`RB_GENERATE` for elements that carry their `RB_ENTRY`.  The elements are pointers, and a head
stands together with the entries of all elements there are.  Following a null pointer is a panic.
Where the source repeats a branch with left and right exchanged, the side is an argument.
`RB_AUGMENT` is the empty one, and the spin lock around the list of scans is left out.
-/

namespace Dragonfly.Kern.Rb

open Dragonfly.Lib Dragonfly.Lib.Redblack

variable {α κ : Type} [DecidableEq α]

/-- The comparison of a tree, as one of keys. -/
structure Order (α κ : Type) [LinearOrder κ] where
  key : α → κ
  cmp : α → α → Int
  neg_iff : ∀ elm other, cmp elm other < 0 ↔ key elm < key other
  pos_iff : ∀ elm other, 0 < cmp elm other ↔ key other < key elm

/-- The comparison of a scan with its range, monotone along the order of the tree. -/
structure Range [LinearOrder κ] (ord : Order α κ) where
  scancmp : α → Int
  below : ∀ elm other, ord.key elm < ord.key other → scancmp other < 0 → scancmp elm < 0
  above : ∀ elm other, ord.key elm < ord.key other → 0 < scancmp elm → 0 < scancmp other

/-- `SCANCMP_ALL` -/
def scancmpAll [LinearOrder κ] (ord : Order α κ) : Range ord where
  scancmp _ := 0
  below _ _ _ neg := neg
  above _ _ _ pos := pos

/-- `RB_ENTRY` -/
structure Entry (α : Type) where
  left : Option α
  right : Option α
  parent : Option α
  color : Color

namespace Entry

def child (entry : Entry α) : Side → Option α
  | .left => entry.left
  | .right => entry.right

def setChild (entry : Entry α) (side : Side) (child : Option α) : Entry α :=
  match side with
  | .left => { entry with left := child }
  | .right => { entry with right := child }

end Entry

/-- `RB_SCAN_INFO` at the address `addr` -/
structure ScanInfo (α : Type) where
  addr : Nat
  node : Option α

/-- `RB_HEAD`: the root and the scans in progress, the innermost first. -/
structure Head (α : Type) where
  root : Option α
  inprog : List (ScanInfo α)
  entry : α → Entry α

namespace Head

/-- `RB_LEFT` -/
def left (head : Head α) (elm : α) : Option α := (head.entry elm).left

/-- `RB_RIGHT` -/
def right (head : Head α) (elm : α) : Option α := (head.entry elm).right

/-- `RB_LEFT` or `RB_RIGHT` -/
def child (head : Head α) (side : Side) (elm : α) : Option α := (head.entry elm).child side

/-- `RB_PARENT` -/
def parent (head : Head α) (elm : α) : Option α := (head.entry elm).parent

/-- `RB_COLOR` -/
def color (head : Head α) (elm : α) : Color := (head.entry elm).color

/-- An element that is there and red. -/
def isRed (head : Head α) (elm : Option α) : Bool := elm.any fun elm => head.color elm = .red

/-- A write to the entry of an element. -/
def modify (head : Head α) (elm : α) (write : Entry α → Entry α) : Head α :=
  { head with entry := Function.update head.entry elm (write (head.entry elm)) }

def setChild (head : Head α) (side : Side) (elm : α) (child : Option α) : Head α :=
  head.modify elm fun entry => entry.setChild side child

def setParent (head : Head α) (elm : α) (parent : Option α) : Head α :=
  head.modify elm fun entry => { entry with parent }

def setColor (head : Head α) (elm : α) (color : Color) : Head α :=
  head.modify elm fun entry => { entry with color }

/-- Sets the parent of a child that is there. -/
def adopt (head : Head α) (child parent : Option α) : Head α :=
  match child with
  | none => head
  | some child => head.setParent child parent

/-- Makes an element that is there black. -/
def blacken (head : Head α) (elm : Option α) : Head α :=
  match elm with
  | none => head
  | some elm => head.setColor elm .black

/-- Puts `other` in the place of `elm`, as a child of its parent or as the root. -/
def relink (head : Head α) (parent : Option α) (elm : α) (other : Option α) : Head α :=
  match parent with
  | none => { head with root := other }
  | some parent =>
      if head.left parent = some elm then head.setChild .left parent other
      else head.setChild .right parent other

end Head

/-- `RB_INIT`; the entries are whatever is in memory. -/
def init (entry : α → Entry α) : Head α := { root := none, inprog := [], entry }

/-- `RB_ROTATE_LEFT` and `RB_ROTATE_RIGHT` -/
def rotate (side : Side) (head : Head α) (elm : α) : Outcome (Head α) :=
  match head.child side.other elm with
  | none => .panic
  | some tmp =>
      let near := head.child side tmp
      let head := (head.setChild side.other elm near).adopt near (some elm)
      let head := head.setParent tmp (head.parent elm)
      let head := head.relink (head.parent elm) elm (some tmp)
      .done ((head.setChild side tmp (some elm)).setParent elm (some tmp))

/-! ## Insertion -/

/-- The end of `RB_INSERT_COLOR` -/
def blackenRoot (head : Head α) : Outcome (Head α) :=
  match head.root with
  | none => .panic
  | some root => .done (head.setColor root .black)

/-- The part of `RB_INSERT_COLOR` for a parent on the side `side` whose sibling is not red, with
the new `elm`. -/
def insertRotate (side : Side) (head : Head α) (elm parent gparent : α) : Outcome (Head α × α) :=
  (if head.child side.other parent = some elm then
    (rotate side head parent).bind fun head => .done (head, parent, elm)
  else .done (head, elm, parent)).bind fun (head, elm, parent) =>
    (rotate side.other ((head.setColor parent .black).setColor gparent .red) gparent).bind fun head =>
      .done (head, elm)

/-- `RB_INSERT_COLOR` -/
def insertColor : Nat → Head α → α → Outcome (Head α)
  | 0, _, _ => .more
  | fuel + 1, head, elm =>
      match head.parent elm with
      | some parent =>
          if head.color parent = .red then
            match head.parent parent with
            | none => .panic
            | some gparent =>
                let side := if head.left gparent = some parent then Side.left else .right
                match head.child side.other gparent with
                | some tmp =>
                    if head.color tmp = .red then
                      insertColor fuel
                        (((head.setColor tmp .black).setColor parent .black).setColor gparent .red) gparent
                    else
                      (insertRotate side head elm parent gparent).bind fun (head, elm) =>
                        insertColor fuel head elm
                | none =>
                    (insertRotate side head elm parent gparent).bind fun (head, elm) =>
                      insertColor fuel head elm
          else blackenRoot head
      | none => blackenRoot head

/-- Where a search ends: at an element with the same key, or below `parent` after the comparison
`comp` with it. -/
inductive Spot (α : Type) where
  | found (tmp : α)
  | below (parent : Option α) (comp : Int)

/-- The loop of `RB_INSERT`. -/
def descend (cmp : α → α → Int) (head : Head α) (elm : α) :
    Nat → Option α → Option α → Int → Outcome (Spot α)
  | 0, _, _, _ => .more
  | _ + 1, none, parent, comp => .done (.below parent comp)
  | fuel + 1, some tmp, _, _ =>
      let comp := cmp elm tmp
      if comp < 0 then descend cmp head elm fuel (head.left tmp) (some tmp) comp
      else if 0 < comp then descend cmp head elm fuel (head.right tmp) (some tmp) comp
      else .done (.found tmp)

/-- `RB_SET` and the link to the new element. -/
def link (head : Head α) (elm : α) (parent : Option α) (comp : Int) : Head α :=
  let head := head.modify elm fun _ => ⟨none, none, parent, .red⟩
  match parent with
  | none => { head with root := some elm }
  | some parent =>
      if comp < 0 then head.setChild .left parent (some elm) else head.setChild .right parent (some elm)

/-- `RB_INSERT`, with what it returns. -/
def insert (cmp : α → α → Int) (fuel : Nat) (head : Head α) (elm : α) : Outcome (Head α × Option α) :=
  (descend cmp head elm fuel head.root none 0).bind fun spot =>
    match spot with
    | .found tmp => .done (head, some tmp)
    | .below parent comp =>
        (insertColor fuel (link head elm parent comp) elm).bind fun head => .done (head, none)

/-! ## The next element -/

/-- The loop that goes left as far as possible. -/
def leftmost (head : Head α) : Nat → α → Outcome α
  | 0, _ => .more
  | fuel + 1, elm =>
      match head.left elm with
      | none => .done elm
      | some left => leftmost head fuel left

/-- The loop of `RB_NEXT` that goes up from right children, and the last step up. -/
def climb (head : Head α) : Nat → α → Outcome (Option α)
  | 0, _ => .more
  | fuel + 1, elm =>
      match head.parent elm with
      | none => .done none
      | some parent =>
          if head.right parent = some elm then climb head fuel parent else .done (some parent)

/-- `RB_NEXT` -/
def next (head : Head α) (fuel : Nat) (elm : α) : Outcome (Option α) :=
  match head.right elm with
  | some right => (leftmost head fuel right).bind fun elm => .done (some elm)
  | none =>
      match head.parent elm with
      | none => climb head fuel elm
      | some parent => if head.left parent = some elm then .done (some parent) else climb head fuel elm

/-! ## Removal -/

/-- The part of `RB_REMOVE_COLOR` for a red sibling. -/
def siblingBlack (side : Side) (head : Head α) (parent : α) : Outcome (Head α) :=
  match head.child side.other parent with
  | none => .panic
  | some tmp =>
      if head.color tmp = .red then
        rotate side ((head.setColor tmp .black).setColor parent .red) parent
      else .done head

/-- The part of `RB_REMOVE_COLOR` for a sibling `tmp` with a red child. -/
def removeRotate (side : Side) (head : Head α) (parent tmp : α) : Outcome (Head α) :=
  (if head.isRed (head.child side.other tmp) then .done (head, tmp)
  else
    (rotate side.other ((head.blacken (head.child side tmp)).setColor tmp .red) tmp).bind fun head =>
      match head.child side.other parent with
      | none => .panic
      | some tmp => .done (head, tmp)).bind fun (head, tmp) =>
    let head := (head.setColor tmp (head.color parent)).setColor parent .black
    rotate side (head.blacken (head.child side.other tmp)) parent

/-- `RB_REMOVE_COLOR` -/
def removeColor : Nat → Head α → Option α → Option α → Outcome (Head α)
  | 0, _, _, _ => .more
  | fuel + 1, head, parent, elm =>
      if ¬head.isRed elm ∧ elm ≠ head.root then
        match parent with
        | none => .panic
        | some parent =>
            let side := if head.left parent = elm then Side.left else .right
            (siblingBlack side head parent).bind fun head =>
              match head.child side.other parent with
              | none => .panic
              | some tmp =>
                  if ¬head.isRed (head.left tmp) ∧ ¬head.isRed (head.right tmp) then
                    let head := head.setColor tmp .red
                    removeColor fuel head (head.parent parent) (some parent)
                  else
                    (removeRotate side head parent tmp).bind fun head => .done (head.blacken head.root)
      else .done (head.blacken elm)

/-- Takes an element with at most one child out of the tree. -/
def unlink (head : Head α) (elm : α) (child : Option α) : Head α :=
  (head.adopt child (head.parent elm)).relink (head.parent elm) elm child

/-- Puts an element that is not in the tree in the place of `old`. -/
def takePlace (head : Head α) (old elm : α) : Outcome (Head α) :=
  let head := head.modify elm fun _ => head.entry old
  let head := head.relink (head.parent old) old (some elm)
  match head.left old with
  | none => .panic
  | some left =>
      let head := head.setParent left (some elm)
      .done (head.adopt (head.right old) (some elm))

/-- The loop of `RB_REMOVE` that moves every scan in progress off the element. -/
def advance (head : Head α) (fuel : Nat) (elm : α) : List (ScanInfo α) → Outcome (List (ScanInfo α))
  | [] => .done []
  | info :: inprog =>
      (if info.node = some elm then
        (next head fuel elm).bind fun node => .done { info with node }
      else .done info).bind fun info =>
        (advance head fuel elm inprog).bind fun inprog => .done (info :: inprog)

/-- The end of `RB_REMOVE` -/
def recolor (fuel : Nat) (head : Head α) (parent child : Option α) (color : Color) : Outcome (Head α) :=
  if color = .black then removeColor fuel head parent child else .done head

/-- `RB_REMOVE` behind its loop over the scans in progress. -/
def detach (fuel : Nat) (head : Head α) (elm : α) : Outcome (Head α) :=
  match head.left elm, head.right elm with
  | none, child => recolor fuel (unlink head elm child) (head.parent elm) child (head.color elm)
  | some left, none =>
      recolor fuel (unlink head elm (some left)) (head.parent elm) (some left) (head.color elm)
  | some _, some right =>
      (leftmost head fuel right).bind fun other =>
        let child := head.right other
        let parent := if head.parent other = some elm then some other else head.parent other
        (takePlace (unlink head other child) elm other).bind fun after =>
          recolor fuel after parent child (head.color other)

/-- `RB_REMOVE` -/
def remove (fuel : Nat) (head : Head α) (elm : α) : Outcome (Head α) :=
  (advance head fuel elm head.inprog).bind fun inprog => detach fuel { head with inprog } elm

/-! ## Scans -/

/-- The loop of `RB_SCAN` that locates the first element of the range. -/
def locate (scancmp : α → Int) (head : Head α) : Nat → Option α → Option α → Outcome (Option α)
  | 0, _, _ => .more
  | _ + 1, none, best => .done best
  | fuel + 1, some tmp, best =>
      if scancmp tmp < 0 then locate scancmp head fuel (head.right tmp) best
      else if 0 < scancmp tmp then locate scancmp head fuel (head.left tmp) best
      else
        match head.left tmp with
        | none => .done (some tmp)
        | some left => locate scancmp head fuel (some left) (some tmp)

/-- `scan_info_link` -/
def scanInfoLink (head : Head α) (info : ScanInfo α) : Head α :=
  { head with inprog := info :: head.inprog }

/-- The list of scans without the one at `addr`; the loop fails at the end of the list. -/
def takeOff (addr : Nat) : List (ScanInfo α) → Outcome (List (ScanInfo α))
  | [] => .panic
  | info :: inprog =>
      if info.addr = addr then .done inprog
      else (takeOff addr inprog).bind fun inprog => .done (info :: inprog)

/-- `scan_info_done` -/
def scanInfoDone (head : Head α) (addr : Nat) : Outcome (Head α) :=
  (takeOff addr head.inprog).bind fun inprog => .done { head with inprog }

/-- `info.node` of the scan at `addr`. -/
def infoNode (head : Head α) (addr : Nat) : Option α :=
  (head.inprog.find? fun info => info.addr = addr).bind (·.node)

/-- A write to `info.node` of the scan at `addr`. -/
def setInfoNode (head : Head α) (addr : Nat) (node : Option α) : Head α :=
  { head with inprog := head.inprog.map fun info => if info.addr = addr then { info with node } else info }

/-- What `RB_SCAN` does next: it calls the callback, or it returns. -/
inductive Turn (α : Type) where
  | call (best : α) (count : Int)
  | ret (count : Int)

/-- `RB_SCAN` up to the first call of the callback, with `info` at `addr`. -/
def scanStart (scancmp : α → Int) (fuel : Nat) (head : Head α) (addr : Nat) :
    Outcome (Head α × Turn α) :=
  (locate scancmp head fuel head.root none).bind fun best =>
    match best with
    | none => .done (head, .ret 0)
    | some best =>
        (next head fuel best).bind fun node => .done (scanInfoLink head ⟨addr, node⟩, .call best 0)

/-- `RB_SCAN` from where the callback returns `comp` to the next call. -/
def scanTurn (scancmp : α → Int) (fuel : Nat) (head : Head α) (addr : Nat) (count comp : Int) :
    Outcome (Head α × Turn α) :=
  if 0 ≤ comp then
    match infoNode head addr with
    | none => (scanInfoDone head addr).bind fun head => .done (head, .ret (count + comp))
    | some best =>
        if scancmp best ≠ 0 then
          (scanInfoDone head addr).bind fun head => .done (head, .ret (count + comp))
        else
          (next head fuel best).bind fun node =>
            .done (setInfoNode head addr node, .call best (count + comp))
  else (scanInfoDone head addr).bind fun head => .done (head, .ret comp)

end Dragonfly.Kern.Rb
