import Mathlib.Data.List.Basic
import Mathlib.Algebra.Order.Ring.Int
import Dragonfly.Lib.Chain
import Dragonfly.Lib.Slots
import Dragonfly.Kern.Slab.Index

/-!
# One zone

`Shape` is what the header of a zone says about its layout.  `ZoneOk` adds where
each chunk is: `near` and `far` are the chunks on `z_LChunks` and `z_RChunks`, in
order, and the window from `z_UIndex` round to `z_UEndIndex` holds the chunks that
were never used.  The operations on a zone keep it.
-/

namespace Dragonfly.Kern.Slab

open Lib

variable {k : Kernel} {z i j : Nat} {h : SLZone} {mem mem' : Mem} {held : Nat → Prop} {kind : Nat → Slot}
  {near far : List Nat}

/-! ## The layout -/

/-- The layout of a zone at `z`. -/
structure Shape (k : Kernel) (z : Nat) (h : SLZone) : Prop where
  base : h.basePtr = z + k.zoneOffset h.chunkSize
  nmax : h.nmax = (k.zoneSize - k.zoneOffset h.chunkSize) / h.chunkSize
  size : ChunkSize k h.zoneIndex h.chunkSize
  aligned : k.zoneSize ∣ z
  lower : k.kvaStart ≤ z
  upper : z + k.zoneSize ≤ k.kvaEnd
  cpu : h.cpu = k.cpuid

/-- The fields of a header that never change while the zone is in use. -/
def SLZone.layout (h : SLZone) : Nat × Nat × Nat × Int × Nat :=
  (h.basePtr, h.nmax, h.chunkSize, h.zoneIndex, h.cpu)

namespace Shape

theorem congr {h' : SLZone} (shape : Shape k z h) (same : h'.layout = h.layout) : Shape k z h' := by
  unfold SLZone.layout at same
  simp only [Prod.mk.injEq] at same
  obtain ⟨base, nmax, size, index, cpu⟩ := same
  constructor
  · rw [base, size, shape.base]
  · rw [nmax, size, shape.nmax]
  · rw [index, size]
    exact shape.size
  · exact shape.aligned
  · exact shape.lower
  · exact shape.upper
  · rw [cpu, shape.cpu]

theorem size_pos (shape : Shape k z h) : 8 ≤ h.chunkSize := shape.size.lower

/-- The chunks lie above the header of the zone. -/
theorem chunkAt_lower (shape : Shape k z h) (i : Nat) : z + k.headerSize h.chunkSize ≤ h.chunkAt i := by
  have header := headerSize_le_zoneOffset (k := k) shape.size_pos
  have base := shape.base
  unfold SLZone.chunkAt
  omega

/-- The chunks end with the zone. -/
theorem chunkAt_upper (shape : Shape k z h) (inside : i < h.nmax) :
    h.chunkAt i + h.chunkSize ≤ z + k.zoneSize := by
  have room := zoneOffset_add_le shape.size
  have base := shape.base
  have whole : h.nmax * h.chunkSize ≤ k.zoneSize - k.zoneOffset h.chunkSize := by
    rw [shape.nmax]
    exact Nat.div_mul_le_self _ _
  have below : (i + 1) * h.chunkSize ≤ h.nmax * h.chunkSize := Nat.mul_le_mul_right _ inside
  rw [Nat.add_one_mul] at below
  unfold SLZone.chunkAt
  omega

/-- Two chunks have no byte in common. -/
theorem chunk_apart (h : SLZone) (other : i ≠ j) :
    h.chunkAt i + h.chunkSize ≤ h.chunkAt j ∨ h.chunkAt j + h.chunkSize ≤ h.chunkAt i := by
  unfold SLZone.chunkAt
  rcases Nat.lt_or_gt_of_ne other with before | behind
  · have step := Nat.mul_le_mul_right h.chunkSize before
    rw [Nat.succ_mul] at step
    exact .inl (by omega)
  · have step := Nat.mul_le_mul_right h.chunkSize behind
    rw [Nat.succ_mul] at step
    exact .inr (by omega)

theorem chunkAt_inj (shape : Shape k z h) (same : h.chunkAt i = h.chunkAt j) : i = j := by
  by_contra other
  have lower := shape.size_pos
  rcases chunk_apart h other with before | behind <;> omega

theorem chunkAt_pos (shape : Shape k z h) (i : Nat) : h.chunkAt i ≠ 0 := by
  have above := shape.chunkAt_lower i
  have lower := shape.lower
  have kva := k.kva
  omega

theorem chunkAt_lt (shape : Shape k z h) (inside : i < h.nmax) : h.chunkAt i < 2 ^ 64 := by
  have below := shape.chunkAt_upper inside
  have upper := shape.upper
  have size := shape.size_pos
  have kva := k.kva
  omega

/-- The zone of a chunk is found by clearing the low bits of its address. -/
theorem chunkAt_div (shape : Shape k z h) (inside : i < h.nmax) : h.chunkAt i / k.zoneSize = z / k.zoneSize := by
  have below := shape.chunkAt_upper inside
  have above := shape.chunkAt_lower i
  have size := shape.size_pos
  obtain ⟨q, rfl⟩ := shape.aligned
  have positive := zoneSize_pos k
  rw [Nat.mul_div_cancel_left q positive]
  apply Nat.div_eq_of_lt_le
  · rw [Nat.mul_comm]
    omega
  · rw [Nat.add_one_mul, Nat.mul_comm]
    omega

theorem zone_of_chunk (shape : Shape k z h) (inside : i < h.nmax) :
    h.chunkAt i / k.zoneSize * k.zoneSize = z := by
  rw [shape.chunkAt_div inside]
  exact Nat.div_mul_cancel shape.aligned

/-- Chunks of a power-of-two size are aligned to it. -/
theorem pow_dvd_chunkAt (shape : Shape k z h) {e : Nat} (power : h.chunkSize = 2 ^ e) (i : Nat) :
    2 ^ e ∣ h.chunkAt i := by
  have small : 2 ^ e ≤ 16384 := by
    rw [← power]
    exact shape.size.upper
  have start : 2 ^ e ∣ z := (pow_dvd_zoneSize small).trans shape.aligned
  unfold SLZone.chunkAt
  rw [shape.base, power]
  exact Nat.dvd_add (Nat.dvd_add start (pow_dvd_zoneOffset e)) (Nat.dvd_mul_left _ i)

theorem bitdex_chunkAt (shape : Shape k z h) (i : Nat) : h.bitdex (h.chunkAt i) = i := by
  have positive := shape.size_pos
  have difference : ((h.chunkAt i : Nat) : Int) - h.basePtr = (i : Int) * h.chunkSize := by
    unfold SLZone.chunkAt
    push_cast
    omega
  unfold SLZone.bitdex
  rw [difference]
  exact Int.mul_tdiv_cancel _ (by omega)

theorem markAllocated_spec (shape : Shape k z h) (inside : i < h.nmax) (clear : k.invariants → h.bitmap i = false) :
    ∃ bitmap, h.markAllocated k z (h.chunkAt i) = .ok { h with bitmap } ∧
      (k.invariants → bitmap = Function.update h.bitmap i true) := by
  unfold SLZone.markAllocated
  rw [shape.bitdex_chunkAt, shape.chunkAt_div inside]
  by_cases invariants : k.invariants
  · rw [if_pos invariants, if_neg (fun other => other rfl), if_neg (by omega), Int.toNat_natCast,
      if_neg (by rw [clear invariants]; decide)]
    exact ⟨_, rfl, fun _ => rfl⟩
  · rw [if_neg invariants]
    exact ⟨h.bitmap, rfl, fun yes => absurd yes invariants⟩

theorem markFree_spec (shape : Shape k z h) (inside : i < h.nmax) (set : k.invariants → h.bitmap i = true) :
    ∃ bitmap, h.markFree k z (h.chunkAt i) = .ok { h with bitmap } ∧
      (k.invariants → bitmap = Function.update h.bitmap i false) := by
  unfold SLZone.markFree
  rw [shape.bitdex_chunkAt, shape.chunkAt_div inside]
  by_cases invariants : k.invariants
  · rw [if_pos invariants, if_neg (fun other => other rfl), if_neg (by omega), Int.toNat_natCast,
      if_neg (fun bit => bit (set invariants))]
    exact ⟨_, rfl, fun _ => rfl⟩
  · rw [if_neg invariants]
    exact ⟨h.bitmap, rfl, fun yes => absurd yes invariants⟩

end Shape

/-! ## The chunks -/

/-- Where the chunks of a zone are.  `held` are the chunks that `kmalloc` has returned. -/
structure ZoneOk (k : Kernel) (mem : Mem) (held : Nat → Prop) (z : Nat) (h : SLZone) (kind : Nat → Slot)
    (near far : List Nat) : Prop where
  shape : Shape k z h
  slots : Slots h.nmax h.uEndIndex h.uIndex kind near far
  held_iff : ∀ i, i < h.nmax → (kind i = .busy ↔ held (h.chunkAt i))
  lChunks : Chain (cNext mem) (near.map h.chunkAt) h.lChunks
  lChunksp : Tail (near.map h.chunkAt) h.lChunksp
  rChunks : Chain (cNext mem) (far.map h.chunkAt) h.rChunks
  zeroed : h.unotzerod = false → ∀ i, i < h.nmax → kind i = .fresh →
    ∀ a, h.chunkAt i ≤ a → a < h.chunkAt i + h.chunkSize → mem a = 0
  bits : k.invariants → ∀ i, i < h.nmax → (h.bitmap i = true ↔ kind i = .busy ∨ kind i = .far)

/-- `z_NFree` is the length of the list and of the window. -/
def Counted (h : SLZone) (near : List Nat) : Prop :=
  h.nfree = (near.length + Slot.window h.nmax h.uEndIndex h.uIndex : Nat)

namespace ZoneOk

/-- The link field of a chunk is not affected by writes to other chunks. -/
theorem cNext_congr (shape : Shape k z h) (i : Nat)
    (same : ∀ a, h.chunkAt i ≤ a → a < h.chunkAt i + h.chunkSize → mem' a = mem a) :
    cNext mem' (h.chunkAt i) = cNext mem (h.chunkAt i) := by
  have size := shape.size_pos
  unfold cNext
  exact Mem.peek_congr fun a lower upper => same a lower (by omega)

/-- Writes to chunks that are handed out, and elsewhere, leave the zone alone. -/
theorem write (ok : ZoneOk k mem held z h kind near far)
    (same : ∀ i, i < h.nmax → kind i ≠ .busy →
      ∀ a, h.chunkAt i ≤ a → a < h.chunkAt i + h.chunkSize → mem' a = mem a) :
    ZoneOk k mem' held z h kind near far where
  shape := ok.shape
  slots := ok.slots
  held_iff := ok.held_iff
  lChunks := by
    apply ok.lChunks.congr
    intro node member
    obtain ⟨i, listed, rfl⟩ := List.mem_map.mp member
    obtain ⟨inside, there⟩ := (ok.slots.mem_near i).mp listed
    exact cNext_congr ok.shape i (same i inside (by rw [there]; decide))
  lChunksp := ok.lChunksp
  rChunks := by
    apply ok.rChunks.congr
    intro node member
    obtain ⟨i, listed, rfl⟩ := List.mem_map.mp member
    obtain ⟨inside, there⟩ := (ok.slots.mem_far i).mp listed
    exact cNext_congr ok.shape i (same i inside (by rw [there]; decide))
  zeroed clean i inside fresh a lower upper := by
    rw [same i inside (by rw [fresh]; decide) a lower upper]
    exact ok.zeroed clean i inside fresh a lower upper
  bits := ok.bits

/-- Only whether the chunks of the zone are held matters. -/
theorem held_congr (ok : ZoneOk k mem held z h kind near far) {held' : Nat → Prop}
    (same : ∀ i, i < h.nmax → (held' (h.chunkAt i) ↔ held (h.chunkAt i))) :
    ZoneOk k mem held' z h kind near far :=
  { ok with held_iff := fun i inside => (ok.held_iff i inside).trans (same i inside).symm }

end ZoneOk

/-! ## Draining `z_RChunks` -/

/-- The loop over a list of chunks counts them, clears their bits and ends at the last one. -/
theorem walk_spec (xs : List Nat) : ∀ {rounds p : Nat} {h : SLZone}, Shape k z h →
    Chain (cNext mem) (xs.map h.chunkAt) p → xs.length ≤ rounds → xs.Nodup → (∀ i ∈ xs, i < h.nmax) →
    (k.invariants → ∀ i ∈ xs, h.bitmap i = true) →
    ∃ bitmap, SLZone.walk k z mem rounds p h =
        .ok { h with
          lChunksp := (xs.map h.chunkAt).getLast?.or h.lChunksp
          nfree := h.nfree + xs.length
          bitmap } ∧
      (k.invariants → ∀ j, bitmap j = true ↔ h.bitmap j = true ∧ j ∉ xs) := by
  induction xs with
  | nil =>
      intro rounds p h shape chain enough distinct inside bits
      have stop : p = 0 := chain
      unfold SLZone.walk
      rw [if_pos stop]
      refine ⟨h.bitmap, ?_, fun _ j => by simp⟩
      simp
  | cons i xs ih =>
      intro rounds p h shape chain enough distinct inside bits
      obtain ⟨rfl, nonnull, rest⟩ := chain
      obtain ⟨missing, distinct⟩ := List.nodup_cons.mp distinct
      cases rounds with
      | zero => cases enough
      | succ rounds =>
          obtain ⟨bitmap, marked, cleared⟩ := shape.markFree_spec (inside i List.mem_cons_self)
            fun invariants => bits invariants i List.mem_cons_self
          unfold SLZone.walk
          rw [if_neg nonnull]
          simp only [marked]
          obtain ⟨final, walked, left⟩ := @ih rounds _
            { h with bitmap, lChunksp := some (h.chunkAt i), nfree := h.nfree + 1 }
            (shape.congr rfl) rest (Nat.le_of_succ_le_succ enough) distinct
            (fun j member => inside j (List.mem_cons_of_mem _ member))
            (fun invariants j member => by
              show bitmap j = true
              have other : j ≠ i := fun same => missing (same ▸ member)
              rw [cleared invariants, Function.update_of_ne other]
              exact bits invariants j (List.mem_cons_of_mem _ member))
          refine ⟨final, ?_, fun invariants j => ?_⟩
          · rw [walked]
            congr 2
            · show h.nfree + 1 + (xs.length : Int) = h.nfree + ((i :: xs).length : Nat)
              rw [List.length_cons]
              push_cast
              omega
            · show (xs.map h.chunkAt).getLast?.or (some (h.chunkAt i)) = _
              rw [List.map_cons, List.getLast?_cons]
              cases ((xs.map h.chunkAt).getLast?) <;> rfl
          · rw [left invariants, List.mem_cons]
            show bitmap j = true ∧ j ∉ xs ↔ _
            rw [cleared invariants]
            rcases eq_or_ne j i with rfl | other
            · simp
            · simp [other]

/-- The same memory but for the link fields of chunks on `z_LChunks`. -/
def SameBut (h : SLZone) (mem mem' : Mem) (near : List Nat) : Prop :=
  ∀ a, (∀ i ∈ near, a < h.chunkAt i ∨ h.chunkAt i + 8 ≤ a) → mem' a = mem a

theorem ZoneOk.storeTail (ok : ZoneOk k mem held z h kind near far) :
    ∃ lChunks mem', SLZone.storeTail { h with rChunks := 0 } mem h.rChunks =
        ({ h with rChunks := 0, lChunks }, mem') ∧
      SameBut h mem mem' near ∧ Chain (cNext mem') ((near ++ far).map h.chunkAt) lChunks ∧
      Chain (cNext mem') (far.map h.chunkAt) h.rChunks := by
  unfold SLZone.storeTail
  have tail := ok.lChunksp
  rcases List.eq_nil_or_concat near with rfl | ⟨front, last, rfl⟩
  · have none : h.lChunksp = none := tail
    simp only [none]
    refine ⟨h.rChunks, mem, rfl, fun _ _ => rfl, ?_, ok.rChunks⟩
    simpa using ok.rChunks
  · have final : h.lChunksp = some (h.chunkAt last) := by
      rw [tail]
      simp
    simp only [final]
    have listed : last ∈ front.concat last := by simp
    have distinct : (front.concat last).Nodup := ok.slots.near_nodup
    obtain ⟨inside, there⟩ := (ok.slots.mem_near last).mp listed
    have size := ok.shape.size_pos
    have others : ∀ i, i ≠ last → cNext (mem.poke (h.chunkAt last) 8 h.rChunks) (h.chunkAt i) = cNext mem (h.chunkAt i) := by
      intro i other
      unfold cNext
      apply Mem.peek_poke_of_apart
      have apart := Shape.chunk_apart h other
      omega
    have small : h.rChunks < 256 ^ 8 := by
      rcases far with _ | ⟨i, far⟩
      · have zero : h.rChunks = 0 := ok.rChunks
        rw [zero]
        decide
      · have first : h.rChunks = h.chunkAt i := ok.rChunks.1
        rw [first]
        exact ok.shape.chunkAt_lt ((ok.slots.mem_far i).mp List.mem_cons_self).1
    have stored : cNext (mem.poke (h.chunkAt last) 8 h.rChunks) (h.chunkAt last) = h.rChunks := by
      unfold cNext
      rw [Mem.peek_poke_same, Nat.mod_eq_of_lt small]
    have second : Chain (cNext (mem.poke (h.chunkAt last) 8 h.rChunks)) (far.map h.chunkAt) h.rChunks := by
      apply ok.rChunks.congr
      intro node member
      obtain ⟨i, away, rfl⟩ := List.mem_map.mp member
      apply others
      rintro rfl
      exact nomatch there.symm.trans ((ok.slots.mem_far i).mp away).2
    refine ⟨h.lChunks, _, rfl, fun a apart => ?_, ?_, second⟩
    · have clear := apart last listed
      exact Mem.blit_outside (by simpa using clear)
    · rw [List.map_append]
      apply ok.lChunks.append (show _ = some (h.chunkAt last) by simp)
      · exact distinct.map_on fun i _ j _ same => ok.shape.chunkAt_inj same
      · rw [stored]
        exact second
      · intro node member other
        obtain ⟨i, -, rfl⟩ := List.mem_map.mp member
        exact others i fun same => other (congrArg h.chunkAt same)

/-- What is on `z_RChunks` is appended to `z_LChunks` and counted. -/
theorem ZoneOk.drain_eq (ok : ZoneOk k mem held z h kind near far) :
    ∃ lChunks lChunksp bitmap mem',
      h.drain k z mem =
        .ok ({ h with rChunks := 0, lChunks, lChunksp, nfree := h.nfree + far.length, bitmap }, mem') ∧
      SameBut h mem mem' near ∧
      ZoneOk k mem' held z { h with rChunks := 0, lChunks, lChunksp, nfree := h.nfree + far.length, bitmap }
        (fun i => if kind i = .far then .near else kind i) (near ++ far) [] := by
  have shape := ok.shape
  have inside : ∀ i ∈ far, i < h.nmax := fun i member => ((ok.slots.mem_far i).mp member).1
  have assemble : ∀ {lChunks lChunksp bitmap mem'}, SameBut h mem mem' near →
      Chain (cNext mem') ((near ++ far).map h.chunkAt) lChunks →
      Tail ((near ++ far).map h.chunkAt) lChunksp →
      (k.invariants → ∀ j, j < h.nmax → (bitmap j = true ↔ h.bitmap j = true ∧ j ∉ far)) →
      ZoneOk k mem' held z { h with rChunks := 0, lChunks, lChunksp, nfree := h.nfree + far.length, bitmap }
        (fun i => if kind i = .far then .near else kind i) (near ++ far) [] := by
    intro lChunks lChunksp bitmap mem' same chain tail bits
    constructor
    · exact shape.congr rfl
    · exact ok.slots.drain
    · intro i below
      show (if kind i = .far then Slot.near else kind i) = .busy ↔ held (h.chunkAt i)
      rw [← ok.held_iff i below]
      cases kind i <;> simp
    · exact chain
    · exact tail
    · exact rfl
    · intro clean i below fresh a lower upper
      have fresh : kind i = .fresh := by
        have fresh : (if kind i = .far then Slot.near else kind i) = .fresh := fresh
        split at fresh
        · cases fresh
        · exact fresh
      have lower : h.chunkAt i ≤ a := lower
      have upper : a < h.chunkAt i + h.chunkSize := upper
      have kept : mem' a = mem a := by
        apply same
        intro j listed
        have other : j ≠ i := by
          rintro rfl
          exact nomatch fresh.symm.trans ((ok.slots.mem_near j).mp listed).2
        have apart := Shape.chunk_apart h other
        have size := shape.size_pos
        omega
      rw [kept]
      exact ok.zeroed clean i below fresh a lower upper
    · intro invariants i below
      show bitmap i = true ↔ (if kind i = .far then Slot.near else kind i) = .busy ∨
        (if kind i = .far then Slot.near else kind i) = .far
      have below : i < h.nmax := below
      rw [bits invariants i below, ok.bits invariants i below, ok.slots.mem_far]
      cases kind i <;> simp [below]
  unfold SLZone.drain
  by_cases empty : h.rChunks = 0
  · rw [if_pos empty]
    obtain rfl : far = [] := by
      have none := ok.rChunks
      rw [empty] at none
      exact List.map_eq_nil_iff.mp none.eq_nil
    refine ⟨h.lChunks, h.lChunksp, h.bitmap, mem, ?_, fun _ _ => rfl, ?_⟩
    · rw [← empty]
      simp
    · apply assemble (fun _ _ => rfl)
      · rw [List.append_nil]
        exact ok.lChunks
      · rw [List.append_nil]
        exact ok.lChunksp
      · simp
  · rw [if_neg empty]
    obtain ⟨lChunks, mem', stored, same, whole, taken⟩ := ok.storeTail
    simp only [stored]
    have few : far.length ≤ h.nmax := by
      have subset : far ⊆ List.range h.nmax := fun i member => List.mem_range.mpr (inside i member)
      have bound := (List.subperm_of_subset ok.slots.far_nodup subset).length_le
      rwa [List.length_range] at bound
    obtain ⟨bitmap, walked, left⟩ := @walk_spec k z mem' far h.nmax h.rChunks { h with rChunks := 0, lChunks }
      (shape.congr rfl) taken few ok.slots.far_nodup inside
      fun invariants i member =>
        (ok.bits invariants i (inside i member)).mpr (.inr ((ok.slots.mem_far i).mp member).2)
    simp only [walked]
    refine ⟨lChunks, _, bitmap, mem', rfl, same, assemble same whole ?_ fun invariants j _ => left invariants j⟩
    have tail := ok.lChunksp
    unfold Tail at *
    rw [List.map_append, List.getLast?_append, tail]
    rfl

/-- The header after `count` chunks have moved from `z_RChunks` to `z_LChunks`. -/
structure Drained (h h' : SLZone) (count : Nat) : Prop where
  layout : h'.layout = h.layout
  magic : h'.magic = h.magic
  rCount : h'.rCount = h.rCount
  window : Slot.window h'.nmax h'.uEndIndex h'.uIndex = Slot.window h.nmax h.uEndIndex h.uIndex
  nfree : h'.nfree = h.nfree + count

theorem ZoneOk.drain (ok : ZoneOk k mem held z h kind near far) :
    ∃ h' mem', h.drain k z mem = .ok (h', mem') ∧ Drained h h' far.length ∧ SameBut h mem mem' near ∧
      ZoneOk k mem' held z h' (fun i => if kind i = .far then .near else kind i) (near ++ far) [] := by
  obtain ⟨lChunks, lChunksp, bitmap, mem', call, same, moved⟩ := ok.drain_eq
  exact ⟨_, mem', call, ⟨rfl, rfl, rfl, rfl, rfl⟩, same, moved⟩

end Dragonfly.Kern.Slab
