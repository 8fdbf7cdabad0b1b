import Mathlib.Data.List.Basic
import Mathlib.Algebra.Order.Group.Int
import Mathlib.Tactic.SplitIfs
import Dragonfly.Kern.Slab.Model

/-!
# Zone sizes, chunk sizes and the layout of a zone

What `kmeminit` and `zoneindex` compute: a request that is not oversized gets a
chunk that is long enough, the zone index determines the chunk size, and a zone
has room for at least one chunk behind its header.
-/

namespace Dragonfly.Kern.Slab

variable {k : Kernel} {n c size a : Nat} {zi : Int}

/-! ## Rounding -/

theorem le_roundUp (positive : 0 < a) : n ≤ roundUp n a := by
  unfold roundUp
  have division := Nat.div_add_mod (n + (a - 1)) a
  have small := Nat.mod_lt (n + (a - 1)) positive
  rw [Nat.mul_comm] at division
  omega

theorem roundUp_le : roundUp n a ≤ n + (a - 1) := Nat.div_mul_le_self _ _

theorem dvd_roundUp : a ∣ roundUp n a := Nat.dvd_mul_left a _

/-- Rounding up does not pass a bound that is itself a multiple. -/
theorem roundUp_le_of_dvd {bound : Nat} (below : n ≤ bound) (multiple : a ∣ bound) (positive : 0 < a) :
    roundUp n a ≤ bound := by
  obtain ⟨q, rfl⟩ := multiple
  unfold roundUp
  have quotient : (n + (a - 1)) / a ≤ q := by
    rw [Nat.div_le_iff_le_mul_add_pred positive, Nat.mul_comm]
    rw [Nat.mul_comm] at below
    omega
  rw [Nat.mul_comm a q]
  exact Nat.mul_le_mul_right a quotient

theorem roundPage_eq (small : n < 2 ^ 63) : roundPage n = roundUp n pageSize := by
  unfold roundPage roundUp pageSize
  rw [Nat.mod_eq_of_lt (by omega)]

/-! ## The zone size -/

theorem zoneSize_eq (k : Kernel) :
    k.zoneSize = if 131072 < k.usesize then 131072 else if 65536 < k.usesize then 65536 else 32768 := by
  unfold Kernel.zoneSize
  simp only [growZoneSize, zallocMinZoneSize, zallocMaxZoneSize]
  by_cases large : 131072 < k.usesize
  · have medium : 65536 < k.usesize := by omega
    simp [large, medium]
  · by_cases medium : 65536 < k.usesize <;> simp [large, medium]

theorem zoneSize_cases (k : Kernel) : k.zoneSize = 32768 ∨ k.zoneSize = 65536 ∨ k.zoneSize = 131072 := by
  rw [zoneSize_eq]
  split
  · exact .inr (.inr rfl)
  · split
    · exact .inr (.inl rfl)
    · exact .inl rfl

/-- The loop of `kmeminit` is over after two rounds. -/
theorem zoneSize_stops (k : Kernel) : ¬(k.zoneSize < zallocMaxZoneSize ∧ k.zoneSize * 2 < k.usesize) := by
  rw [zoneSize_eq]
  unfold zallocMaxZoneSize
  split
  · omega
  · split <;> omega

theorem zoneSize_pos (k : Kernel) : 0 < k.zoneSize := by
  rcases zoneSize_cases k with same | same | same <;> omega

theorem zoneLimit_le (k : Kernel) : k.zoneLimit ≤ 16384 ∧ k.zoneLimit * 4 ≤ k.zoneSize := by
  unfold Kernel.zoneLimit zallocZoneLimit
  rcases zoneSize_cases k with same | same | same <;> rw [same] <;> decide

theorem zoneLimit_cases (k : Kernel) : k.zoneLimit = 8192 ∨ k.zoneLimit = 16384 := by
  unfold Kernel.zoneLimit zallocZoneLimit
  rcases zoneSize_cases k with same | same | same <;> rw [same] <;> decide

theorem pageSize_dvd_zoneSize (k : Kernel) : pageSize ∣ k.zoneSize := by
  rcases zoneSize_cases k with same | same | same <;> rw [same] <;> decide

/-- A power of two that is at most a quarter of the zone size divides it. -/
theorem pow_dvd_zoneSize {j : Nat} (small : 2 ^ j ≤ 16384) : 2 ^ j ∣ k.zoneSize := by
  have exponent : j ≤ 14 := (Nat.pow_le_pow_iff_right (by decide : 1 < 2)).mp (small.trans_eq (by decide))
  have divides : 2 ^ j ∣ 2 ^ 14 := Nat.pow_dvd_pow 2 exponent
  refine divides.trans ?_
  rcases zoneSize_cases k with same | same | same <;> rw [same] <;> decide

/-! ## Chunk sizes -/

/-- The chunk size of a zone index. -/
def chunkSizeOf (zi : Int) : Nat :=
  if zi ≤ 15 then 8 * (zi + 1).toNat
  else if zi ≤ 23 then 16 * (zi - 7).toNat
  else if zi ≤ 31 then 32 * (zi - 15).toNat
  else if zi ≤ 39 then 64 * (zi - 23).toNat
  else if zi ≤ 47 then 128 * (zi - 31).toNat
  else if zi ≤ 55 then 256 * (zi - 39).toNat
  else if zi ≤ 63 then 512 * (zi - 47).toNat
  else 1024 * (zi - 55).toNat

/-- What a chunk size of a zone is like. -/
structure ChunkSize (k : Kernel) (zi : Int) (size : Nat) : Prop where
  lower : 8 ≤ size
  multiple : 8 ∣ size
  upper : size ≤ 16384
  quarter : size * 4 ≤ k.zoneSize
  index : 0 ≤ zi ∧ zi < nzones
  determined : size = chunkSizeOf zi

/-- One class of `zoneindex`: requests in `[lo, hi)`, chunk sizes a multiple of `a`. -/
theorem class_spec {lo hi : Nat} {off : Int} (above : lo ≤ n) (below : n < hi) (step : 8 ∣ a) (positive : 0 < n)
    (nonzero : 0 < a) (ends : a ∣ hi) (limit : hi ≤ k.zoneLimit)
    (index : ∀ q : Nat, lo ≤ a * q → a * q ≤ hi → 0 < q →
      0 ≤ (q : Int) + off ∧ (q : Int) + off < 72 ∧ a * q = chunkSizeOf (q + off)) :
    n ≤ roundUp n a ∧ ChunkSize k ((roundUp n a / a : Nat) + off) (roundUp n a) := by
  obtain ⟨small, quarter⟩ := zoneLimit_le k
  have long : n ≤ roundUp n a := le_roundUp nonzero
  have fits : roundUp n a ≤ hi := roundUp_le_of_dvd (Nat.le_of_lt below) ends nonzero
  obtain ⟨q, same⟩ := (dvd_roundUp : a ∣ roundUp n a)
  rw [same] at long fits ⊢
  have some : 0 < q := by
    rcases Nat.eq_zero_or_pos q with rfl | some
    · omega
    · exact some
  obtain ⟨low, high, determined⟩ := index q (by omega) fits some
  rw [Nat.mul_div_cancel_left q nonzero]
  have multiple : 8 ∣ a * q := Dvd.dvd.mul_right step q
  refine ⟨long, ?_⟩
  constructor
  · have bound := Nat.le_of_dvd (by omega) multiple
    exact bound
  · exact multiple
  · omega
  · omega
  · exact ⟨low, high⟩
  · exact determined

/-- One of the classes of `zoneindex` that double: eight chunk sizes, from `8 * a` on. -/
theorem doubling_spec {off : Int} (above : 8 * a ≤ n) (below : n < 16 * a) (step : 8 ∣ a) (nonzero : 0 < a)
    (limit : 16 * a ≤ k.zoneLimit)
    (index : ∀ q : Nat, q ≤ 16 → 8 ≤ q →
      0 ≤ (q : Int) + off ∧ (q : Int) + off < 72 ∧ a * q = chunkSizeOf (q + off)) :
    n ≤ roundUp n a ∧ ChunkSize k ((roundUp n a / a : Nat) + off) (roundUp n a) := by
  refine class_spec above below step (by omega) nonzero (Nat.dvd_mul_left a 16) limit ?_
  intro q low high _
  apply index q
  · rw [Nat.mul_comm] at high
    exact Nat.le_of_mul_le_mul_right high nonzero
  · rw [Nat.mul_comm] at low
    exact Nat.le_of_mul_le_mul_left low nonzero

/-- A request that is not oversized has a chunk size, at least as long. -/
theorem zoneindex_spec (positive : 0 < n) (below : n < k.zoneLimit) :
    ∃ c zi, zoneindex n = .ok (c, zi) ∧ n ≤ c ∧ ChunkSize k zi c := by
  have limit := zoneLimit_cases k
  have word : n % 2 ^ 32 = n := Nat.mod_eq_of_lt (by omega)
  unfold zoneindex
  simp only [word]
  rcases Nat.lt_or_ge n 128 with h | h1
  · rw [if_pos h, Int.sub_eq_add_neg]
    refine ⟨_, _, rfl, @class_spec k n 8 1 128 (-1) positive h (by decide) positive (by decide)
      (by decide) (by omega) fun q low high some => ?_⟩
    unfold chunkSizeOf
    rw [if_pos (by omega)]
    omega
  rw [if_neg (Nat.not_lt.mpr h1)]
  rcases Nat.lt_or_ge n 256 with h | h2
  · rw [if_pos h]
    exact ⟨_, _, rfl, doubling_spec h1 h (by decide) (by decide) (by omega) (by decide)⟩
  rw [if_neg (Nat.not_lt.mpr h2)]
  rcases Nat.lt_or_ge n 512 with h | h3
  · rw [if_pos h]
    exact ⟨_, _, rfl, doubling_spec h2 h (by decide) (by decide) (by omega) (by decide)⟩
  rw [if_neg (Nat.not_lt.mpr h3)]
  rcases Nat.lt_or_ge n 1024 with h | h4
  · rw [if_pos h]
    exact ⟨_, _, rfl, doubling_spec h3 h (by decide) (by decide) (by omega) (by decide)⟩
  rw [if_neg (Nat.not_lt.mpr h4)]
  rcases Nat.lt_or_ge n 2048 with h | h5
  · rw [if_pos h]
    exact ⟨_, _, rfl, doubling_spec h4 h (by decide) (by decide) (by omega) (by decide)⟩
  rw [if_neg (Nat.not_lt.mpr h5)]
  rcases Nat.lt_or_ge n 4096 with h | h6
  · rw [if_pos h]
    exact ⟨_, _, rfl, doubling_spec h5 h (by decide) (by decide) (by omega) (by decide)⟩
  rw [if_neg (Nat.not_lt.mpr h6)]
  rcases Nat.lt_or_ge n 8192 with h | h7
  · rw [if_pos h]
    exact ⟨_, _, rfl, doubling_spec h6 h (by decide) (by decide) (by omega) (by decide)⟩
  rw [if_neg (Nat.not_lt.mpr h7)]
  rw [if_pos (by omega)]
  exact ⟨_, _, rfl, doubling_spec h7 (by omega) (by decide) (by decide) (by omega) (by decide)⟩

/-! ## The layout of a zone -/

theorem headerSize_le (lower : 8 ≤ size) : k.headerSize size ≤ 3168 := by
  have count : k.zoneSize / size ≤ 16384 := by
    have smaller : k.zoneSize / size ≤ k.zoneSize / 8 := Nat.div_le_div_left lower (by decide)
    rcases zoneSize_cases k with same | same | same <;> omega
  unfold Kernel.headerSize Kernel.sizeofSLZone
  split <;> split <;> omega

theorem headerSize_le_zoneOffset (lower : 8 ≤ size) : k.headerSize size ≤ k.zoneOffset size := by
  unfold Kernel.zoneOffset minChunkSize
  split
  · exact le_roundUp (by omega)
  · exact le_roundUp (by decide)

/-- The chunks of a power-of-two size begin at a multiple of it. -/
theorem pow_dvd_zoneOffset (j : Nat) : 2 ^ j ∣ k.zoneOffset (2 ^ j) := by
  unfold Kernel.zoneOffset
  rw [if_pos]
  · exact dvd_roundUp
  · have positive := Nat.two_pow_pos j
    have union := Nat.two_pow_add_eq_or_of_lt (Nat.sub_lt positive Nat.one_pos) 1
    rw [Nat.mul_one] at union
    rw [← union, Nat.shiftLeft_eq]
    omega

theorem zoneOffset_add_le (chunk : ChunkSize k zi size) : k.zoneOffset size + 2 * size ≤ k.zoneSize := by
  have lower := chunk.lower
  have quarter := chunk.quarter
  have header := @headerSize_le k size lower
  have large : 32768 ≤ k.zoneSize := by
    rcases zoneSize_cases k with same | same | same <;> omega
  unfold Kernel.zoneOffset minChunkSize
  split
  · have bound := @roundUp_le (k.headerSize size) size
    omega
  · have bound := @roundUp_le (k.headerSize size) 8
    omega

/-- A zone has room for more than one chunk, so that a new zone has a chunk left after its first one. -/
theorem one_lt_nmax (chunk : ChunkSize k zi size) : 1 < (k.zoneSize - k.zoneOffset size) / size := by
  have room := zoneOffset_add_le chunk
  have lower := chunk.lower
  exact (Nat.le_div_iff_mul_le (by omega)).mpr (by omega)

end Dragonfly.Kern.Slab
