import Mathlib.Data.List.Perm.Subperm
import Dragonfly.Kern.Rb.Scan

/-!
# Searches for a key

However elements are inserted and removed, the tree stays balanced: the loop of `RB_FIND` makes
no more passes than twice the logarithm of the number of elements, and finds what is there.
-/

namespace Dragonfly.Kern.Rb

open Dragonfly.Lib Dragonfly.Lib.Redblack

variable {α κ : Type} {head : Head α} {inprog : List (ScanInfo α)} {tree : RbTree α} {path : Spine α}

/-- The loop of `RB_FIND`. -/
def findLoop (cmp : α → α → Int) (head : Head α) (elm : α) : Nat → Option α → Outcome (Option α)
  | 0, _ => .more
  | _ + 1, none => .done none
  | fuel + 1, some tmp =>
      let comp := cmp elm tmp
      if comp < 0 then findLoop cmp head elm fuel (head.left tmp)
      else if 0 < comp then findLoop cmp head elm fuel (head.right tmp)
      else .done (some tmp)

/-- `RB_FIND` -/
def find (cmp : α → α → Int) (fuel : Nat) (head : Head α) (elm : α) : Outcome (Option α) :=
  findLoop cmp head elm fuel head.root

variable [LinearOrder κ] {ord : Order α κ}

/-- The loop goes down one way, by induction on the tree. -/
theorem findLoop_done (holds : Holds head inprog tree path) (sorted : Sorted ord tree.elems) (elm : α) {fuel : Nat}
    (enough : tree.height < fuel) :
    ∃ found, findLoop ord.cmp head elm fuel tree.root = .done found ∧
      ∀ other, found = some other ↔ other ∈ tree.elems ∧ ord.key other = ord.key elm := by
  induction tree generalizing path fuel with
  | nil =>
      obtain ⟨fuel, rfl⟩ := Nat.exists_eq_add_of_lt enough
      exact ⟨none, rfl, by simp [RbTree.elems]⟩
  | node color left tmp right ihLeft ihRight =>
      obtain ⟨fuel, rfl⟩ : ∃ rest, fuel = rest + 1 := ⟨fuel - 1, by omega⟩
      obtain ⟨lower, lower'⟩ := Nat.max_lt.mp (Nat.lt_of_succ_lt_succ enough)
      obtain ⟨sortedLeft, sortedRest, across⟩ := List.pairwise_append.mp sorted
      obtain ⟨first, sortedRight⟩ := List.pairwise_cons.mp sortedRest
      have entry : head.entry tmp = ⟨left.root, right.root, Spine.parent path, color⟩ := holds.shape.1
      have before : ∀ other ∈ left.elems, ord.key other < ord.key tmp :=
        fun other member => across other member tmp List.mem_cons_self
      rcases lt_trichotomy (ord.key elm) (ord.key tmp) with less | same | more
      · have seen : Holds head inprog (.make .left color left tmp right) path := holds
        obtain ⟨found, done, spec⟩ := ihLeft (Holds.down_iff.mp seen) sortedLeft lower
        refine ⟨found, ?_, fun other => ?_⟩
        · rw [RbTree.root, findLoop]
          simp only [if_pos ((ord.neg_iff elm tmp).mpr less), Head.left, entry]
          exact done
        · rw [spec, RbTree.elems, List.mem_append]
          refine and_congr_left fun key => (or_iff_left ?_).symm
          intro member
          rcases List.mem_cons.mp member with rfl | member
          · exact less.ne' key
          · exact (less.trans (first other member)).ne' key
      · have zero : ¬ord.cmp elm tmp < 0 ∧ ¬0 < ord.cmp elm tmp := by
          rw [ord.neg_iff, ord.pos_iff, same]
          exact ⟨lt_irrefl _, lt_irrefl _⟩
        refine ⟨some tmp, ?_, fun other => ?_⟩
        · rw [RbTree.root, findLoop]
          simp only [if_neg zero.1, if_neg zero.2]
        · have member : tmp ∈ (RbTree.node color left tmp right).elems := by simp [RbTree.elems]
          constructor
          · rintro ⟨⟩
            exact ⟨member, same.symm⟩
          · rintro ⟨member', key⟩
            exact congrArg some (sorted.eq_of_key member member' (same.symm.trans key.symm))
      · have pos := (ord.pos_iff elm tmp).mpr more
        have seen : Holds head inprog (.make .right color right tmp left) path := holds
        obtain ⟨found, done, spec⟩ := ihRight (Holds.down_iff.mp seen) sortedRight lower'
        refine ⟨found, ?_, fun other => ?_⟩
        · rw [RbTree.root, findLoop]
          simp only [if_neg (not_lt.mpr pos.le), if_pos pos, Head.right, entry]
          exact done
        · rw [spec, RbTree.elems, List.mem_append, List.mem_cons]
          refine and_congr_left fun key => ⟨fun member => .inr (.inr member), ?_⟩
          rintro (member | rfl | member)
          · exact absurd key ((before other member).trans more).ne
          · exact absurd key more.ne
          · exact member

variable [DecidableEq α]

/-- In every state that modifications and scans can lead to, `RB_FIND` needs no more passes than
twice the logarithm of the number of elements, and comes back with the element of the key exactly
if it is in the tree. -/
theorem find_logarithmic {entry : α → Entry α} {actions : List (Action ord)} {s : State ord}
    (run : Run Move (start ord entry) actions s) (elm : α) {fuel : Nat}
    (enough : 2 * Nat.log 2 (s.members.length + 1) + 1 ≤ fuel) :
    ∃ found, find ord.cmp fuel s.head elm = .done found ∧
      ∀ other, found = some other ↔ other ∈ s.members ∧ ord.key other = ord.key elm := by
  have inv : Inv s := run.invariant (fun inv move => inv.move move) (start_inv entry)
  obtain ⟨elms, ⟨sorted, tree, n, holds, ok, rfl⟩, members⟩ := inv.built
  -- the elements of the tree are distinct, so that there are no more of them than members
  have fewer : tree.elems.length ≤ s.members.length :=
    (List.Nodup.subperm sorted.nodup fun elm member => (members elm).mpr member).length_le
  have low : tree.height < fuel := by
    have bound := Nat.mul_le_mul_left 2 (Nat.log_mono_right (b := 2) (Nat.succ_le_succ fewer))
    exact (ok.height_log.trans bound).trans_lt enough
  obtain ⟨found, done, spec⟩ := findLoop_done holds sorted elm low
  rw [← holds.root] at done
  exact ⟨found, done, fun other => (spec other).trans (and_congr_left' (members other).symm)⟩

/-- With two elements left of three, three passes find each of them. -/
theorem find_logarithmic_three : ∃ s : State natural,
    Run Move (start natural fun _ => ⟨none, none, none, .red⟩)
        [.insert 2, .insert 1, .insert 3, .remove 2] s ∧
      ∃ found, find natural.cmp 3 s.head 3 = .done found ∧
        ∀ other, found = some other ↔ other ∈ s.members ∧ other = 3 := by
  have run : ∃ s : State natural, Run Move (start natural fun _ => ⟨none, none, none, .red⟩)
      [.insert 2, .insert 1, .insert 3, .remove 2] s ∧ s.members = [3, 1] := by
    refine ⟨?last, ?run, ?members⟩
    case run =>
      refine .cons (.inserted (.evaluated 9 fun _ => rfl)) ?_
      refine .cons (.inserted (.evaluated 9 fun _ => rfl)) ?_
      refine .cons (.inserted (.evaluated 9 fun _ => rfl)) ?_
      refine .cons (.removed (by simp [start]) (.evaluated 9 fun _ => rfl)) ?_
      exact .nil _
    case members => exact rfl
  obtain ⟨s, run, members⟩ := run
  exact ⟨s, run, find_logarithmic run 3 (by rw [members]; decide)⟩

end Dragonfly.Kern.Rb
