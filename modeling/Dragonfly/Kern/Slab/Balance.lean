import Mathlib.Data.List.Basic
import Mathlib.Data.List.Perm.Basic
import Dragonfly.Kern.Slab.Intact
import Dragonfly.Kern.Slab.Stats

/-!
# The statistics of a malloc type add up

Allocations are charged where they are made and frees where they are made, so
that a single count may wrap around.  The sums over the cpus are the number and
the size of the blocks that are live.
-/

namespace Dragonfly.Kern.Slab.Stats

open Lib

variable {k : Kernel} {sys : System} {ncpus gd type : Nat} {a : Account} {s : State} {b : Block}

/-- The sum over the first cpus. -/
def total (stat : Nat → BitVec 64) : Nat → BitVec 64
  | 0 => 0
  | n + 1 => total stat n + stat n

theorem total_congr {first second : Nat → BitVec 64} {n : Nat} (same : ∀ c < n, first c = second c) :
    total first n = total second n := by
  induction n with
  | zero => rfl
  | succ n ih =>
      unfold total
      rw [ih fun c below => same c (Nat.lt_succ_of_lt below), same n (Nat.lt_succ_self n)]

theorem total_update {stat : Nat → BitVec 64} {c n : Nat} (below : c < n) (d : BitVec 64) :
    total (Function.update stat c (stat c + d)) n = total stat n + d := by
  induction n with
  | zero => cases below
  | succ n ih =>
      unfold total
      rcases Nat.lt_succ_iff_lt_or_eq.mp below with inside | rfl
      · rw [ih inside, Function.update_of_ne (Nat.ne_of_gt inside), BitVec.add_assoc, BitVec.add_comm d, BitVec.add_assoc]
      · rw [Function.update_self, BitVec.add_assoc]
        congr 1
        exact total_congr fun i inside => Function.update_of_ne (Nat.ne_of_lt inside) ..

theorem total_bump {stat : Nat → Nat → BitVec 64} {other : Nat} (below : gd < ncpus) (n : BitVec 64) :
    total (bump stat type gd n other) ncpus = total (stat other) ncpus + if other = type then n else 0 := by
  unfold bump
  split
  case isTrue same =>
    subst same
    rw [Function.update_self]
    exact total_update below n
  case isFalse different =>
    rw [Function.update_of_ne different]
    exact (BitVec.add_zero _).symm

/-- How many blocks of a malloc type are live. -/
def count (accounts : List Account) (type : Nat) : Nat := (accounts.filter (·.type = type)).length

/-- The sizes of their chunks and pages. -/
def bytes (accounts : List Account) (type : Nat) : Nat := ((accounts.filter (·.type = type)).map (·.block.len)).sum

/-- Two accounts for one block. -/
def Account.Same (a b : Account) : Prop := a.cpu = b.cpu ∧ a.block.ptr = b.block.ptr

instance (a b : Account) : Decidable (a.Same b) := inferInstanceAs (Decidable (_ ∧ _))

/-- The sums of the statistics are right. -/
structure Balanced (ncpus : Nat) (sys : System) : Prop where
  distinct : sys.accounts.Pairwise fun a b => ¬a.Same b
  inuse : ∀ type, total (sys.inuse type) ncpus = BitVec.ofNat 64 (count sys.accounts type)
  memuse : ∀ type, total (sys.memuse type) ncpus = BitVec.ofNat 64 (bytes sys.accounts type)

/-- Taking an account off the books takes off this account only. -/
theorem perm_filter {accounts : List Account} (distinct : accounts.Pairwise fun a b => ¬a.Same b) (member : a ∈ accounts) :
    accounts.Perm (a :: accounts.filter fun b => ¬(b.cpu = a.cpu ∧ b.block.ptr = a.block.ptr)) := by
  induction accounts with
  | nil => cases member
  | cons b accounts ih =>
      obtain ⟨apart, distinct⟩ := List.pairwise_cons.mp distinct
      rcases List.mem_cons.mp member with rfl | later
      · have kept : accounts.filter (fun b => ¬(b.cpu = a.cpu ∧ b.block.ptr = a.block.ptr)) = accounts := by
          refine List.filter_eq_self.mpr fun c member => ?_
          have other := apart c member
          simp only [decide_eq_true_eq]
          exact fun same => other ⟨same.1.symm, same.2.symm⟩
        rw [List.filter_cons_of_neg (by simp), kept]
      · have other : ¬(b.cpu = a.cpu ∧ b.block.ptr = a.block.ptr) := apart a later
        rw [List.filter_cons, if_pos (decide_eq_true other)]
        exact ((ih distinct later).cons b).trans (.swap a b _)

theorem count_cons (a : Account) (accounts : List Account) (type : Nat) :
    count (a :: accounts) type = count accounts type + if type = a.type then 1 else 0 := by
  unfold count
  by_cases same : type = a.type
  · rw [List.filter_cons_of_pos (by simpa using same.symm), if_pos same, List.length_cons]
  · rw [List.filter_cons_of_neg (by simpa using Ne.symm same), if_neg same, Nat.add_zero]

theorem bytes_cons (a : Account) (accounts : List Account) (type : Nat) :
    bytes (a :: accounts) type = bytes accounts type + if type = a.type then a.block.len else 0 := by
  unfold bytes
  by_cases same : type = a.type
  · rw [List.filter_cons_of_pos (by simpa using same.symm), if_pos same, List.map_cons, List.sum_cons, Nat.add_comm]
  · rw [List.filter_cons_of_neg (by simpa using Ne.symm same), if_neg same, Nat.add_zero]

theorem count_perm {first second : List Account} (same : first.Perm second) (type : Nat) :
    count first type = count second type :=
  (same.filter _).length_eq

theorem bytes_perm {first second : List Account} (same : first.Perm second) (type : Nat) :
    bytes first type = bytes second type :=
  ((same.filter _).map _).sum_nat

/-- What is added to a sum and taken back cancels. -/
theorem ofNat_add_neg {n m : Nat} {x : BitVec 64} (same : x = BitVec.ofNat 64 (n + m)) :
    x + -BitVec.ofNat 64 m = BitVec.ofNat 64 n := by
  rw [same, BitVec.ofNat_add, BitVec.add_assoc, ← BitVec.sub_eq_add_neg, BitVec.sub_self, BitVec.add_zero]

/-- A chunk is charged where it is allocated. -/
theorem Balanced.charge (balanced : Balanced ncpus sys) (here : gd < ncpus)
    (new : ∀ a ∈ sys.accounts, ¬Account.Same ⟨gd, type, b⟩ a) : Balanced ncpus (sys.charge gd type b) where
  distinct := List.pairwise_cons.mpr ⟨new, balanced.distinct⟩
  inuse other := by
    show total (bump sys.inuse type gd 1 other) ncpus = BitVec.ofNat 64 (count (⟨gd, type, b⟩ :: sys.accounts) other)
    rw [total_bump here, balanced.inuse, count_cons, BitVec.ofNat_add]
    congr 1
    split <;> rfl
  memuse other := by
    show total (bump sys.memuse type gd (BitVec.ofNat 64 b.len) other) ncpus =
      BitVec.ofNat 64 (bytes (⟨gd, type, b⟩ :: sys.accounts) other)
    rw [total_bump here, balanced.memuse, bytes_cons, BitVec.ofNat_add]
    congr 1
    split <;> rfl

/-- A block is taken back where it is freed. -/
theorem Balanced.credit (balanced : Balanced ncpus sys) (here : gd < ncpus) (member : a ∈ sys.accounts) :
    Balanced ncpus (sys.credit gd a.block.len a.type a.cpu a.block.ptr) where
  distinct := balanced.distinct.sublist List.filter_sublist
  inuse other := by
    have before := balanced.inuse other
    rw [count_perm (perm_filter balanced.distinct member), count_cons] at before
    show total (bump sys.inuse a.type gd (-1) other) ncpus = _
    rw [total_bump here]
    split at before
    case isTrue same => rw [if_pos same]; exact ofNat_add_neg before
    case isFalse different => rw [if_neg different, before]; exact BitVec.add_zero _
  memuse other := by
    have before := balanced.memuse other
    rw [bytes_perm (perm_filter balanced.distinct member), bytes_cons] at before
    show total (bump sys.memuse a.type gd (-BitVec.ofNat 64 a.block.len) other) ncpus = _
    rw [total_bump here]
    split at before
    case isTrue same => rw [if_pos same]; exact ofNat_add_neg before
    case isFalse different => rw [if_neg different, before]; exact BitVec.add_zero _

/-! ## The size that is found -/

/-- A page count above zero gives the size back when that fits an `int`. -/
theorem kupBytes_eq_iff {kup : Int} (bound : kup.toNat * pageSize < 2 ^ 63) :
    kupBytes kup = kup.toNat * pageSize ↔ kup.toNat * pageSize < 2 ^ 31 := by
  unfold kupBytes int32
  omega

/-- The size found for a live block is its size, unless that is `2 ^ 31` or more. -/
theorem blockSize_eq_iff (use : Use k s) (held : b ∈ s.live) : blockSize k b.ptr s = b.len ↔ b.len < 2 ^ 31 := by
  have kva := k.kva
  unfold blockSize
  rcases use.live b held with ⟨z, h, i, active, inside, rfl⟩ | big
  · have shape := use.shape active
    have upper := shape.size.upper
    rw [if_neg (show ¬s.kup (h.chunkAt i / pageSize) > 0 from use.chunk_kup active inside)]
    simp only [shape.zone_of_chunk inside]
    rw [active.1]
    show h.chunkSize = h.chunkSize ↔ h.chunkSize < 2 ^ 31
    exact ⟨fun _ => by omega, fun _ => rfl⟩
  · have mapped := use.mapped b big.mapped
    have pages : (s.kup (b.ptr / pageSize)).toNat * pageSize = b.len := big.length.symm
    rw [if_pos big.count, ← pages]
    apply kupBytes_eq_iff
    unfold Block.stop at mapped
    omega

/-- Frees are charged to the cpu that frees. -/
theorem chargedCpu_eq (k : Kernel) (gd ptr : Nat) (s : State) : chargedCpu k gd ptr s = gd := by
  unfold chargedCpu
  split
  · rfl
  · split
    · rfl
    · split
      · rfl
      · rename_i same
        exact not_not.mp same

end Dragonfly.Kern.Slab.Stats
