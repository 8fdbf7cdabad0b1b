import Dragonfly.Lib.Bitmap
import Dragonfly.Lib.Outcome
import Dragonfly.Lib.Radix

/-!
# The power-of-two allocator

A radix tree over blocks: a leaf has a bitmap of 32 blocks, a meta node has two bits for
each of the 16 nodes below.  A node below that is all free or all allocated holds stale
data until it is initialised again.  Where a meta node has no node below, the source has
a terminator.  The model leaves out the layout of the nodes in one array, with `skip`.
-/

namespace Dragonfly.Kern.Alist

open Dragonfly.Lib Dragonfly.Lib.Bitmap Dragonfly.Lib.Radix

/-- Two bits of the bitmap of a meta node: `00`, `01`, `10` and `11`. -/
inductive Pair where
  | allocated
  | partly
  | reserved
  | free
  deriving DecidableEq, Repr

/-- `almeta_t` of a leaf -/
structure Leaf where
  bitmap : Word
  bighint : Nat

/-- `almeta_t` of a meta node, with the nodes below -/
structure Meta (α : Type) where
  bitmap : Nat → Pair
  bighint : Nat
  child : Nat → Option α

/-- Trees by their level; leaves are at level zero. -/
def Tree : Nat → Type
  | 0 => Leaf
  | level + 1 => Meta (Tree level)

/-! ## The record of a node -/

/-- `bm_bighint` -/
def bighint : (level : Nat) → Tree level → Nat
  | 0, scan => Leaf.bighint scan
  | _ + 1, scan => Meta.bighint scan

/-- All 16 pairs of the bitmap are the same. -/
def Meta.all {α : Type} (scan : Meta α) (pair : Pair) : Bool :=
  (List.range 16).all fun i => scan.bitmap i = pair

/-- `bm_bitmap == 0` -/
def isZero : (level : Nat) → Tree level → Bool
  | 0, scan => Leaf.bitmap scan = 0
  | _ + 1, scan => Meta.all scan .allocated

/-- `bm_bitmap == (alist_bmap_t)-1` -/
def isOnes : (level : Nat) → Tree level → Bool
  | 0, scan => Leaf.bitmap scan = ones
  | _ + 1, scan => Meta.all scan .free

/-- Initialise a node that is completely free. -/
def setFree : (level : Nat) → Tree level → Tree level
  | 0, _ => (⟨ones, radix 0⟩ : Leaf)
  | level + 1, scan => (⟨fun _ => .free, radix (level + 1), Meta.child scan⟩ : Meta _)

/-- Initialise a node that is completely allocated. -/
def setAllocated : (level : Nat) → Tree level → Tree level
  | 0, _ => (⟨0, 0⟩ : Leaf)
  | _ + 1, scan => (⟨fun _ => .allocated, 0, Meta.child scan⟩ : Meta _)

/-! ## Allocation -/

/-- `alst_leaf_alloc` -/
def leafAlloc (scan : Leaf) (blk start count : Nat) : Option Nat × Leaf :=
  if blk + 32 ≤ start then (none, scan)
  else
    let orig :=
      if blk < start ∧ start < blk + 32 then
        scan.bitmap &&& ~~~(1#32 <<< (start - blk) - 1#32)
      else scan.bitmap
    let start := start % 32
    if orig = 0 then (none, if start ≤ blk then { scan with bighint := 0 } else scan)
    else if count = 1 then
      (some (blk + lowest orig), { scan with bitmap := scan.bitmap &&& ~~~(1#32 <<< lowest orig) })
    else
      match findRun orig count count with
      | some (j, mask) => (some (blk + j), { scan with bitmap := scan.bitmap &&& ~~~mask })
      | none => (none, if start ≤ blk then { scan with bighint := count - 1 } else scan)

section Loops

variable {α : Type}

/-- Write a pair of the bitmap. -/
def Meta.setPair (scan : Meta α) (i : Nat) (pair : Pair) : Meta α :=
  { scan with bitmap := Function.update scan.bitmap i pair }

/-- Write a node below. -/
def Meta.setChild (scan : Meta α) (i : Nat) (child : α) : Meta α :=
  { scan with child := Function.update scan.child i (some child) }

/-- The hint after a failure, if all of the node was searched. -/
def Meta.lower (scan : Meta α) (blk start count : Nat) : Meta α :=
  if count ≤ scan.bighint ∧ start ≤ blk then { scan with bighint := count / 2 } else scan

/-- The loop over aligned groups of `n` nodes below that are all free, from `j` on. -/
def directLoop (scan : Meta α) (blk start radix n : Nat) : Nat → Nat → Option Nat
  | 0, _ => none
  | fuel + 1, j =>
      if j < 16 then
        if ((List.range n).all fun i => scan.bitmap (j + i) = .free) && start ≤ blk + j * radix then
          some j
        else directLoop scan blk start radix n fuel (j + n)
      else none

/-- Allocate directly out of a meta node. -/
def allocDirect (scan : Meta α) (blk start count radix : Nat) : Option Nat × Meta α :=
  match directLoop scan blk start radix (count / radix) 16 0 with
  | some j =>
      (some (blk + j * radix),
        { scan with
          bitmap := fun i => if j ≤ i ∧ i < j + count / radix then .allocated else scan.bitmap i })
  | none => (none, scan.lower blk start count)

end Loops

/-- The loop of `alst_meta_alloc` over the nodes below, from the one with number `i` on. -/
def allocLoop (level : Nat)
    (alloc : Tree level → Nat → Nat → Nat → Option Nat × Tree level) (start count : Nat) :
    Nat → Nat → Nat → Meta (Tree level) → Option Nat × Meta (Tree level)
  | 0, _, _, scan => (none, scan)
  | fuel + 1, i, blk, scan =>
      match scan.child i with
      | none => (none, scan)
      | some child =>
          let child := if scan.bitmap i = .free then setFree level child else child
          let scan := scan.setChild i child
          if scan.bitmap i = .allocated ∨ blk + radix level ≤ start ∨ bighint level child < count then
            allocLoop level alloc start count fuel (i + 1) (blk + radix level) scan
          else
            match alloc child blk start count with
            | (some r, child) =>
                (some r,
                  (scan.setChild i child).setPair i
                    (if isZero level child then .allocated else .partly))
            | (none, child) =>
                allocLoop level alloc start count fuel (i + 1) (blk + radix level)
                  (scan.setChild i child)

/-- `alst_meta_alloc`, with the search of the nodes below -/
def metaAlloc (level : Nat) (alloc : Tree level → Nat → Nat → Nat → Option Nat × Tree level)
    (scan : Meta (Tree level)) (blk start count : Nat) : Option Nat × Meta (Tree level) :=
  if scan.all .allocated then (none, { scan with bighint := 0 })
  else if radix level ≤ count then allocDirect scan blk start count (radix level)
  else
    match allocLoop level alloc start count 16 0 blk scan with
    | (some r, scan) => (some r, scan)
    | (none, scan) => (none, scan.lower blk start count)

/-- The search of a node. -/
def alloc : (level : Nat) → Tree level → Nat → Nat → Nat → Option Nat × Tree level
  | 0, scan, blk, start, count => leafAlloc scan blk start count
  | level + 1, scan, blk, start, count => metaAlloc level (alloc level) scan blk start count

/-! ## Freeing -/

/-- `alst_leaf_free` -/
def leafFree (scan : Leaf) (blk count : Nat) : Outcome Leaf :=
  let mask := span (blk % 32) count
  if scan.bitmap &&& mask = 0 then .done ⟨scan.bitmap ||| mask, 32⟩ else .panic

/-- The loop of `alst_meta_free`, from the node with number `i` on.  There is no
terminator in the range. -/
def freeLoop (level : Nat) (free : Tree level → Nat → Nat → Nat → Outcome (Tree level)) :
    Nat → Nat → Nat → Nat → Nat → Meta (Tree level) → Outcome (Meta (Tree level))
  | 0, _, _, _, _, scan => .done scan
  | fuel + 1, i, blk, freeBlk, count, scan =>
      if blk < freeBlk + count then
        let v := min (blk + radix level - freeBlk) count
        .kkassert (scan.bighint ≠ 0xFFFFFFFF) <|
          if freeBlk = blk ∧ radix level ≤ count then
            .kkassert (scan.bitmap i = .allocated) <|
              freeLoop level free fuel (i + 1) (blk + radix level) (freeBlk + v) (count - v)
                { scan.setPair i .free with bighint := radix level * 16 }
          else
            match scan.child i with
            | none => .panic
            | some child =>
                let child := if scan.bitmap i = .allocated then setAllocated level child else child
                (free child freeBlk v blk).bind fun child =>
                  let scan := scan.setChild i child
                  freeLoop level free fuel (i + 1) (blk + radix level) (freeBlk + v) (count - v)
                    (if isOnes level child then
                      { scan.setPair i .free with bighint := radix level * 16 }
                    else
                      { scan.setPair i .partly with bighint := max scan.bighint (bighint level child) })
      else .done scan

/-- `alst_meta_free`, with the free of the nodes below -/
def metaFree (level : Nat) (free : Tree level → Nat → Nat → Nat → Outcome (Tree level))
    (scan : Meta (Tree level)) (freeBlk count blk : Nat) : Outcome (Meta (Tree level)) :=
  let i := (freeBlk - blk) / radix level
  freeLoop level free (16 - i) i (blk + i * radix level) freeBlk count scan

/-- The free of blocks in a node. -/
def free : (level : Nat) → Tree level → Nat → Nat → Nat → Outcome (Tree level)
  | 0, scan, freeBlk, count, _ => leafFree scan freeBlk count
  | level + 1, scan, freeBlk, count, blk => metaFree level (free level) scan freeBlk count blk

/-! ## The allocator -/

/-- `struct alist` with a tree of the given level -/
structure Head (level : Nat) where
  blocks : Nat
  free : Nat
  root : Tree level

/-- `alst_radix_init` -/
def radixInit : (level : Nat) → Nat → Nat → Tree level
  | 0, _, _ => (⟨0, 0⟩ : Leaf)
  | level + 1, blk, count =>
      (⟨fun _ => .allocated, 0, fun i =>
        if blk + i * radix level < count then some (radixInit level (blk + i * radix level) count)
        else none⟩ : Meta (Tree level))

/-- `alist_create` -/
def create (blocks : Nat) : Head (levelOf blocks) where
  blocks := blocks
  free := 0
  root := radixInit (levelOf blocks) 0 blocks

variable {level : Nat}

/-- `alist_free` -/
def alistFree (bl : Head level) (blkno count : Nat) : Outcome (Head level) :=
  .kkassert (blkno + count ≤ bl.blocks) <|
    (free level bl.root blkno count 0).bind fun root =>
      .done { bl with root := root, free := bl.free + count }

/-- `alist_alloc` of a power of two -/
def allocPower (bl : Head level) (start count : Nat) : Option Nat × Head level :=
  if count < radix level then
    match alloc level bl.root 0 start count with
    | (some blk, root) => (some blk, { bl with root := root, free := bl.free - count })
    | (none, root) => (none, { bl with root := root })
  else (none, bl)

/-- `(count | (count - 1)) == (count << 1) - 1` in 32 bits -/
def isPower (count : Nat) : Bool :=
  (count ||| (count - 1)) = (count * 2 + (2 ^ 32 - 1)) % 2 ^ 32

/-- The loop that doubles `ncount`. -/
def roundLoop (count : Nat) : Nat → Nat → Outcome Nat
  | 0, _ => .more
  | fuel + 1, ncount =>
      if ncount < count then roundLoop count fuel (ncount * 2 % 2 ^ 32) else .done ncount

/-- `alist_alloc` -/
def alistAlloc : Nat → Head level → Nat → Nat → Outcome (Option Nat × Head level)
  | 0, _, _, _ => .more
  | fuel + 1, bl, start, count =>
      .kkassert (count ≠ 0) <|
        if isPower count then .done (allocPower bl start count)
        else
          (roundLoop count fuel (if count < 256 then 1 else 256)).bind fun ncount =>
            (alistAlloc fuel bl start ncount).bind fun
            | (none, bl) => .done (none, bl)
            | (some blk, bl) =>
                (alistFree bl (blk + count) (ncount - count)).bind fun bl => .done (some blk, bl)

end Dragonfly.Kern.Alist
