import Dragonfly.Lib.Bitmap
import Dragonfly.Lib.Outcome
import Dragonfly.Lib.Radix

/-!
# The bitmap allocator of the swap code

A radix tree over blocks: a leaf has a bitmap of 32 blocks, a meta node has the number of
free blocks below.  If this number is zero or the radix, all nodes below are stale until
they are initialised again.  Where a meta node has no node below, the source has a
terminator, the hint `-1`.  The layout of the nodes in one array is left out.
-/

namespace Dragonfly.Kern.Blist

open Dragonfly.Lib Dragonfly.Lib.Bitmap Dragonfly.Lib.Radix

/-- `blmeta_t` of a leaf -/
structure Leaf where
  bitmap : Word
  bighint : Nat

/-- `blmeta_t` of a meta node, with the nodes below -/
structure Meta (α : Type) where
  avail : Nat
  bighint : Nat
  child : Nat → Option α

/-- Trees by their level; leaves are at level zero. -/
@[reducible]
def Tree : Nat → Type
  | 0 => Leaf
  | level + 1 => Meta (Tree level)

/-- `bm_bighint` -/
def bighint : (level : Nat) → Tree level → Nat
  | 0, scan => Leaf.bighint scan
  | _ + 1, scan => Meta.bighint scan

/-- Initialise a node that is completely free. -/
def setFree : (level : Nat) → Tree level → Tree level
  | 0, _ => (⟨ones, radix 0⟩ : Leaf)
  | level + 1, scan => (⟨radix (level + 1), radix (level + 1), Meta.child scan⟩ : Meta _)

/-- Initialise a node that is completely allocated. -/
def setAllocated : (level : Nat) → Tree level → Tree level
  | 0, _ => (⟨0, 0⟩ : Leaf)
  | _ + 1, scan => (⟨0, 0, Meta.child scan⟩ : Meta _)

/-- The loop that initialises the nodes below, up to the terminator. -/
def Meta.initialise {α : Type} (scan : Meta α) (set : α → α) : Meta α :=
  { scan with child := fun i => (scan.child i).map set }

/-- Write a node below. -/
def Meta.setChild {α : Type} (scan : Meta α) (i : Nat) (child : α) : Meta α :=
  { scan with child := Function.update scan.child i (some child) }

/-! ## Allocation -/

/-- `blst_leaf_alloc` -/
def leafAlloc (scan : Leaf) (blk count : Nat) : Option Nat × Leaf :=
  if scan.bitmap = 0 then (none, { scan with bighint := 0 })
  else if count = 1 then
    (some (blk + lowest scan.bitmap),
      { scan with bitmap := scan.bitmap &&& ~~~(1#32 <<< lowest scan.bitmap) })
  else
    match if count ≤ 32 then findRun scan.bitmap count 1 else none with
    | some (j, mask) => (some (blk + j), { scan with bitmap := scan.bitmap &&& ~~~mask })
    | none => (none, { scan with bighint := count - 1 })

/-- The loop of `blst_meta_alloc` over the nodes below, from the one with number `i` on. -/
def allocLoop (level : Nat) (alloc : Tree level → Nat → Nat → Outcome (Option Nat × Tree level))
    (count : Nat) :
    Nat → Nat → Nat → Meta (Tree level) → Outcome (Option Nat × Meta (Tree level))
  | 0, _, _, scan => .done (none, scan)
  | fuel + 1, i, blk, scan =>
      match scan.child i with
      | none => .done (none, scan)
      | some child =>
          if count ≤ bighint level child then
            (alloc child blk count).bind fun
            | (some r, child) =>
                .done (some r,
                  { scan.setChild i child with
                    avail := scan.avail - count
                    bighint := min scan.bighint (scan.avail - count) })
            | (none, child) =>
                allocLoop level alloc count fuel (i + 1) (blk + radix level) (scan.setChild i child)
          else if radix level < count then .panic
          else allocLoop level alloc count fuel (i + 1) (blk + radix level) scan

/-- `blst_meta_alloc`, with the search of the nodes below -/
def metaAlloc (level : Nat) (alloc : Tree level → Nat → Nat → Outcome (Option Nat × Tree level))
    (scan : Meta (Tree level)) (blk count : Nat) : Outcome (Option Nat × Meta (Tree level)) :=
  if scan.avail = 0 then .done (none, { scan with bighint := 0 })
  else
    (allocLoop level alloc count 16 0 blk
      (if scan.avail = radix (level + 1) then
        { scan.initialise (setFree level) with bighint := radix (level + 1) }
      else scan)).bind fun
    | (some r, scan) => .done (some r, scan)
    | (none, scan) =>
        .done (none, if count ≤ scan.bighint then { scan with bighint := count - 1 } else scan)

/-- The search of a node. -/
def alloc : (level : Nat) → Tree level → Nat → Nat → Outcome (Option Nat × Tree level)
  | 0, scan, blk, count => .done (leafAlloc scan blk count)
  | level + 1, scan, blk, count => metaAlloc level (alloc level) scan blk count

/-! ## Freeing -/

/-- `blst_leaf_free` -/
def leafFree (scan : Leaf) (blk count : Nat) : Outcome Leaf :=
  let mask := span (blk % 32) count
  if scan.bitmap &&& mask = 0 then .done ⟨scan.bitmap ||| mask, 32⟩ else .panic

/-- The loop of `blst_meta_free`, from the node with number `i` on.  There is no
terminator in the range. -/
def freeLoop (level : Nat) (free : Tree level → Nat → Nat → Nat → Outcome (Tree level)) :
    Nat → Nat → Nat → Nat → Nat → Meta (Tree level) → Outcome (Meta (Tree level))
  | 0, _, _, _, _, scan => .done scan
  | fuel + 1, i, blk, freeBlk, count, scan =>
      if blk < freeBlk + count then
        let v := min (blk + radix level - freeBlk) count
        match scan.child i with
        | none => .panic
        | some child =>
            (free child freeBlk v blk).bind fun child =>
              freeLoop level free fuel (i + 1) (blk + radix level) (freeBlk + v) (count - v)
                { scan.setChild i child with bighint := max scan.bighint (bighint level child) }
      else .done scan

/-- The start of `blst_meta_free`: the blocks are counted, and the nodes below are
initialised if they are stale and are not skipped. -/
def countFreed (level : Nat) (scan : Meta (Tree level)) (count : Nat) : Meta (Tree level) :=
  if scan.avail = 0 then
    if count ≠ radix (level + 1) then
      { scan.initialise (setAllocated level) with avail := count, bighint := count }
    else { scan with avail := count, bighint := count }
  else { scan with avail := scan.avail + count }

/-- `blst_meta_free`, with the free of the nodes below -/
def metaFree (level : Nat) (free : Tree level → Nat → Nat → Nat → Outcome (Tree level))
    (scan : Meta (Tree level)) (freeBlk count blk : Nat) : Outcome (Meta (Tree level)) :=
  let scan := countFreed level scan count
  if scan.avail = radix (level + 1) then .done { scan with bighint := radix (level + 1) }
  else if radix (level + 1) < scan.avail then .panic
  else
    let i := (freeBlk - blk) / radix level
    freeLoop level free (16 - i) i (blk + i * radix level) freeBlk count scan

/-- The free of blocks in a node. -/
def free : (level : Nat) → Tree level → Nat → Nat → Nat → Outcome (Tree level)
  | 0, scan, freeBlk, count, _ => leafFree scan freeBlk count
  | level + 1, scan, freeBlk, count, blk => metaFree level (free level) scan freeBlk count blk

/-! ## Filling -/

/-- The loop that counts the bits of a word. -/
def countLoop : Nat → Word → Nat → Nat
  | 0, _, nblks => nblks
  | fuel + 1, bitmap, nblks =>
      if bitmap ≠ 0 then countLoop fuel (bitmap &&& (bitmap - 1#32)) (nblks + 1) else nblks

/-- `blst_leaf_fill` -/
def leafFill (scan : Leaf) (blk count : Nat) : Nat × Leaf :=
  let mask := span (blk % 32) count
  (countLoop 33 (scan.bitmap &&& mask) 0, { scan with bitmap := scan.bitmap &&& ~~~mask })

/-- The loop of `blst_meta_fill`, from the node with number `i` on. -/
def fillLoop (level : Nat) (fill : Tree level → Nat → Nat → Nat → Outcome (Nat × Tree level)) :
    Nat → Nat → Nat → Nat → Nat → Nat → Meta (Tree level) → Outcome (Nat × Meta (Tree level))
  | 0, _, _, _, _, nblks, scan => .done (nblks, scan)
  | fuel + 1, i, blk, fillBlk, count, nblks, scan =>
      if blk < fillBlk + count then
        let v := min (blk + radix level - fillBlk) count
        match scan.child i with
        | none => .panic
        | some child =>
            (fill child fillBlk v blk).bind fun (n, child) =>
              fillLoop level fill fuel (i + 1) (blk + radix level) (fillBlk + v) (count - v)
                (nblks + n) (scan.setChild i child)
      else .done (nblks, scan)

/-- `blst_meta_fill`, with the fill of the nodes below -/
def metaFill (level : Nat) (fill : Tree level → Nat → Nat → Nat → Outcome (Nat × Tree level))
    (scan : Meta (Tree level)) (fillBlk count blk : Nat) : Outcome (Nat × Meta (Tree level)) :=
  if count = radix (level + 1) ∨ scan.avail = 0 then
    .done (scan.avail, { scan with avail := 0, bighint := count })
  else if radix level < count then .panic
  else
    let i := (fillBlk - blk) / radix level
    (fillLoop level fill (16 - i) i (blk + i * radix level) fillBlk count 0
      (if scan.avail = radix (level + 1) then scan.initialise (setFree level) else scan)).bind
      fun (nblks, scan) => .done (nblks, { scan with avail := scan.avail - nblks })

/-- The fill of blocks in a node. -/
def fill : (level : Nat) → Tree level → Nat → Nat → Nat → Outcome (Nat × Tree level)
  | 0, scan, fillBlk, count, _ => .done (leafFill scan fillBlk count)
  | level + 1, scan, fillBlk, count, blk => metaFill level (fill level) scan fillBlk count blk

/-! ## The allocator -/

/-- `struct blist` with a tree of the given level -/
structure Head (level : Nat) where
  blocks : Nat
  free : Nat
  root : Tree level

/-- `blst_radix_init` -/
def radixInit : (level : Nat) → Nat → Tree level
  | 0, _ => (⟨0, 0⟩ : Leaf)
  | level + 1, count =>
      (⟨0, 0, fun i =>
        if i * radix level < count then some (radixInit level (min (count - i * radix level) (radix level)))
        else none⟩ : Meta (Tree level))

/-- `BLIST_MAXBLKS` -/
def maxBlks : Nat := 0x40000000 / (32 / 16)

/-- `blist_create` -/
def create (blocks : Nat) : Head (levelOf blocks) where
  blocks := blocks
  free := 0
  root := radixInit (levelOf blocks) blocks

variable {level : Nat}

/-- `blist_alloc` -/
def blistAlloc (bl : Head level) (count : Nat) : Outcome (Option Nat × Head level) :=
  (alloc level bl.root 0 count).bind fun
  | (some blk, root) => .done (some blk, { bl with root := root, free := bl.free - count })
  | (none, root) => .done (none, { bl with root := root })

/-- `blist_free` -/
def blistFree (bl : Head level) (blkno count : Nat) : Outcome (Head level) :=
  (free level bl.root blkno count 0).bind fun root =>
    .done { bl with root := root, free := bl.free + count }

/-- `blist_fill` -/
def blistFill (bl : Head level) (blkno count : Nat) : Outcome (Nat × Head level) :=
  (fill level bl.root blkno count 0).bind fun (filled, root) =>
    .done (filled, { bl with root := root, free := bl.free - filled })

end Dragonfly.Kern.Blist
