import Dragonfly.Kern.Alist.Sizing

/-!
# The last free area

`alist_free_info` goes down from the root.  In a meta node it scans the pairs from the last
one down: a pair that is free is the answer, one that is partly free leads to the node
below.  In a leaf the answer is the last free block.
-/

namespace Dragonfly.Kern.Alist

open Dragonfly.Lib Dragonfly.Lib.Bitmap Dragonfly.Lib.Radix
open Dragonfly.Lib.Blocks (Taken)

/-- The loop over the pairs of a meta node, from the one with number `i - 1` down.  The
bitmap of a terminator is zero. -/
def infoLoop (level : Nat) (next : Tree level → Nat → Nat × Nat) (scan : Meta (Tree level))
    (start : Nat) : Nat → Nat × Nat
  | 0 => (start, 0)
  | i + 1 =>
      match scan.bitmap i with
      | .allocated => infoLoop level next scan start i
      | .partly =>
          match scan.child i with
          | some child => next child (start + i * radix level)
          | none => (start + i * radix level, 0)
      | .reserved => (start, 0)
      | .free => (start + i * radix level, radix level)

/-- The loop over the bits of a leaf, from the one with number `i - 1` down. -/
def infoLeaf (bitmap : Word) (start : Nat) : Nat → Nat × Nat
  | 0 => (start, 0)
  | i + 1 => if bitmap &&& 1#32 <<< i ≠ 0 then (start + i, 1) else infoLeaf bitmap start i

/-- The way from a node down; `start` is `*startp`.  The result is `*startp` and
`*countp`. -/
def info : (level : Nat) → Tree level → Nat → Nat × Nat
  | 0, scan, start => infoLeaf (Leaf.bitmap scan) start 32
  | level + 1, scan, start => infoLoop level (info level) scan start 16

/-- `alist_free_info`, with its result in front -/
def alistFreeInfo {level : Nat} (bl : Head level) : Nat × Nat × Nat := (bl.free, info level bl.root 0)

/-- An area is the last one of the free blocks, which are numbered from `start` on. -/
def LastArea (free : Nat → Bool) (start : Nat) (area : Nat × Nat) : Prop :=
  (area.2 = 0 ∧ ∀ block, free block = false) ∨
    (0 < area.2 ∧ ∃ offset, area.1 = start + offset ∧
      (∀ block, Blocks.within offset area.2 block = true → free block = true) ∧
      ∀ block, offset + area.2 ≤ block → free block = false)

variable {level limit : Nat}

/-! ## A leaf -/

theorem infoLeaf_spec {bitmap : Word} {i : Nat} (small : i ≤ 32)
    (none : ∀ block, i ≤ block → blocks bitmap block = false) (start : Nat) :
    LastArea (blocks bitmap) start (infoLeaf bitmap start i) := by
  induction i with
  | zero => exact .inl ⟨rfl, fun block => none block (Nat.zero_le block)⟩
  | succ i ih =>
      rw [infoLeaf]
      by_cases set : blocks bitmap i = true
      · rw [if_pos ((bit_ne_zero_iff small).mpr set)]
        refine .inr ⟨Nat.one_pos, i, rfl, ?_, none⟩
        intro block member
        rw [Blocks.within_iff] at member
        obtain rfl : block = i := by omega
        exact set
      · rw [if_neg (mt (bit_ne_zero_iff small).mp set)]
        apply ih (Nat.le_of_succ_le small)
        intro block above
        obtain rfl | more := Nat.eq_or_lt_of_le above
        · exact Bool.eq_false_iff.mpr set
        · exact none block more

/-! ## A meta node -/

/-- A block of the node below with number `i`. -/
theorem freeBlocks_part (scan : Tree (level + 1)) {i block : Nat} (inside : i < 16)
    (above : i * radix level ≤ block) (small : block < (i + 1) * radix level) :
    freeBlocks (level + 1) scan block =
      view (radix level) (freeBlocks level) (Meta.bitmap scan i) (Meta.child scan i)
        (block - i * radix level) := by
  rw [Nat.succ_mul] at small
  rw [← freeBlocks_meta scan inside (show block - i * radix level < radix level by omega),
    Nat.add_sub_cancel' above]

/-- The last area of the node below is the last one, if nothing is free behind the node. -/
theorem LastArea.part {scan : Tree (level + 1)} {i start : Nat} {area : Nat × Nat} {part : Nat → Bool}
    (inside : i < 16)
    (is : view (radix level) (freeBlocks level) (Meta.bitmap scan i) (Meta.child scan i) = part)
    (ends : ∀ block, radix level ≤ block → part block = false)
    (none : ∀ block, (i + 1) * radix level ≤ block → freeBlocks (level + 1) scan block = false)
    (some : ∃ block, part block = true) (last : LastArea part (start + i * radix level) area) :
    LastArea (freeBlocks (level + 1) scan) start area := by
  have size : (i + 1) * radix level = i * radix level + radix level := Nat.succ_mul ..
  obtain ⟨-, empty⟩ | ⟨positive, offset, begins, within, behind⟩ := last
  · obtain ⟨block, set⟩ := some
    rw [empty block] at set
    cases set
  · refine .inr ⟨positive, i * radix level + offset, by omega, ?_, ?_⟩
    · intro block member
      rw [Blocks.within_iff] at member
      have set := within (block - i * radix level) (Blocks.within_iff.mpr (by omega))
      have small : block - i * radix level < radix level := by
        by_contra large
        rw [ends _ (Nat.le_of_not_lt large)] at set
        cases set
      rw [freeBlocks_part scan inside (by omega) (by omega), is]
      exact set
    · intro block above
      by_cases small : block < (i + 1) * radix level
      · rw [freeBlocks_part scan inside (by omega) small, is]
        exact behind _ (by omega)
      · exact none block (Nat.le_of_not_lt small)

/-- The loop over the pairs, if nothing is free in the nodes that are done. -/
theorem infoLoop_spec {next : Tree level → Nat → Nat × Nat} {scan : Meta (Tree level)}
    (live : Live (level + 1) limit scan)
    (goes : ∀ {limit child}, Live level limit child → ∀ start,
      LastArea (freeBlocks level child) start (next child start))
    {i : Nat} (inside : i ≤ 16)
    (none : ∀ block, i * radix level ≤ block → freeBlocks (level + 1) scan block = false) (start : Nat) :
    LastArea (freeBlocks (level + 1) scan) start (infoLoop level next scan start i) := by
  induction i with
  | zero => exact .inl ⟨rfl, fun block => none block (by omega)⟩
  | succ i ih =>
      have pair := live i inside
      rw [infoLoop]
      cases is : Meta.bitmap scan i with
      | reserved =>
          rw [is] at pair
          exact pair.elim
      | allocated =>
          apply ih (Nat.le_of_succ_le inside)
          intro block above
          by_cases small : block < (i + 1) * radix level
          · rw [freeBlocks_part scan inside above small, is, view_allocated]
          · exact none block (Nat.le_of_not_lt small)
      | free =>
          show LastArea _ start (start + i * radix level, radix level)
          refine LastArea.part inside (by rw [is, view_free]) ?_ none ⟨0, ?_⟩
            (.inr ⟨radix_pos level, 0, rfl, ?_, ?_⟩)
          · intro block large
            exact decide_eq_false (Nat.not_lt.mpr large)
          · exact decide_eq_true (radix_pos level)
          · intro block member
            rw [Blocks.within_iff] at member
            exact decide_eq_true (by omega)
          · intro block large
            exact decide_eq_false (by omega)
      | partly =>
          rw [is] at pair
          obtain ⟨node, child, liveNode, ⟨block, -, set⟩, -⟩ := pair
          simp only [child]
          exact LastArea.part inside (by rw [is, child, view_partly])
            (fun block large => freeBlocks_of_ge node large) none ⟨block, set⟩ (goes liveNode _)

/-- The way down finds the last area. -/
theorem info_spec {scan : Tree level} (live : Live level limit scan) (start : Nat) :
    LastArea (freeBlocks level scan) start (info level scan start) := by
  induction level generalizing limit start with
  | zero => exact infoLeaf_spec (le_refl 32) (fun block large => blocks_eq_false large) start
  | succ level ih =>
      apply infoLoop_spec live ih (le_refl 16)
      intro block large
      rw [← radix_succ] at large
      exact freeBlocks_of_ge scan large

/-! ## The allocator -/

/-- In every run of an allocator, from its creation on, the free blocks that
`alist_free_info` returns are the last ones, and a count of zero says that there are none.
In front is the number of free blocks. -/
theorem free_info_is_last {blocks : Nat} (created : Sized blocks) {calls : List Call}
    {bl : Head (levelOf blocks)} (run : Run Move (create blocks) calls bl) :
    ∃ start count, alistFreeInfo bl = (Blocks.size bl.freeBlocks bl.blocks, start, count) ∧
      ((∃ block, bl.freeBlocks block = true) → 0 < count ∧
        (∀ block, start ≤ block → block < start + count → bl.freeBlocks block = true) ∧
        ∀ block, start + count ≤ block → bl.freeBlocks block = false) ∧
      ((∀ block, bl.freeBlocks block = false) → count = 0) := by
  have ok : bl.Ok :=
    run.invariant (fun ok move => Head.Ok.move ok move) (create_ok ((sized_iff).mp created))
  refine ⟨(info _ bl.root 0).1, (info _ bl.root 0).2, ?_, ?_⟩
  · rw [← ok.counts]
    rfl
  · obtain ⟨zero, empty⟩ | ⟨positive, offset, begins, within, behind⟩ := info_spec ok.root.live 0
    · refine ⟨?_, fun _ => zero⟩
      rintro ⟨block, set⟩
      rw [Head.freeBlocks, empty block] at set
      cases set
    · rw [Nat.zero_add] at begins
      rw [begins]
      constructor
      · intro _
        exact ⟨positive, fun block above below => within block (Blocks.within_iff.mpr ⟨above, below⟩), behind⟩
      · intro empty
        have first := within offset (Blocks.within_iff.mpr (by omega))
        rw [show freeBlocks _ bl.root offset = false from empty offset] at first
        cases first

theorem free_info_is_last_free : ∃ bl : Head (levelOf 40), Run Move (create 40) [.free 3 20] bl ∧
    ∃ start count, alistFreeInfo bl = (Blocks.size bl.freeBlocks bl.blocks, start, count) := by
  have taken : Taken (create 40).freeBlocks 3 20 :=
    fun block _ => congrFun (radixInit_freeBlocks _ 0 40) block
  obtain ⟨bl, is, -⟩ := alistFree_spec (create_ok (by decide)) (by decide) (by decide) taken
  have run : Run Move (create 40) [.free 3 20] bl :=
    .cons (.free (by decide) (by decide) taken is) (.nil bl)
  obtain ⟨start, count, result, -⟩ := free_info_is_last ((sized_iff).mpr (by decide)) run
  exact ⟨bl, run, start, count, result⟩

end Dragonfly.Kern.Alist
