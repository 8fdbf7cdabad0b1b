import Mathlib.Data.List.Basic
import Dragonfly.Kern.Slab.Zone

/-!
# Chunks leave a zone and come back

What `kmalloc`, `kfree` and the `kfree` of another cpu do to the header and the
lists of one zone.
-/

namespace Dragonfly.Kern.Slab

open Lib

variable {k : Kernel} {z i j : Nat} {h : SLZone} {mem mem' : Mem} {held : Nat → Prop} {kind : Nat → Slot}
  {near far : List Nat} {flags : Flags}

namespace ZoneOk

/-- The chunks held after one more has been handed out. -/
theorem held_cons (ok : ZoneOk k mem held z h kind near far) (i : Nat) :
    ∀ j, j < h.nmax → (Function.update kind i .busy j = .busy ↔ h.chunkAt j = h.chunkAt i ∨ held (h.chunkAt j)) := by
  intro j below
  rcases eq_or_ne j i with rfl | other
  · simp
  · rw [Function.update_of_ne other, ok.held_iff j below]
    constructor
    · exact .inr
    · rintro (same | held)
      · exact absurd (ok.shape.chunkAt_inj same) other
      · exact held

theorem bits_cons (ok : ZoneOk k mem held z h kind near far) {bitmap : Nat → Bool} (apart : kind i ≠ .far)
    (marked : k.invariants → bitmap = Function.update h.bitmap i true) :
    k.invariants → ∀ j, j < h.nmax →
      (bitmap j = true ↔ Function.update kind i .busy j = .busy ∨ Function.update kind i .busy j = .far) := by
  intro invariants j below
  rw [marked invariants]
  rcases eq_or_ne j i with rfl | other
  · simp
  · rw [Function.update_of_ne other, Function.update_of_ne other, ok.bits invariants j below]

theorem zeroed_cons (ok : ZoneOk k mem held z h kind near far) (place : Slot) (used : place ≠ .fresh)
    (clean : h.unotzerod = false) (below : j < h.nmax) (fresh : Function.update kind i place j = .fresh) :
    ∀ a, h.chunkAt j ≤ a → a < h.chunkAt j + h.chunkSize → mem a = 0 := by
  rcases eq_or_ne j i with rfl | other
  · rw [Function.update_self] at fresh
    exact absurd fresh used
  · rw [Function.update_of_ne other] at fresh
    exact ok.zeroed clean j below fresh

/-- The header after the first chunk of `z_LChunks` has been taken. -/
def tookNear (h : SLZone) (mem : Mem) (bitmap : Nat → Bool) : SLZone :=
  { h with
    bitmap
    lChunks := cNext mem h.lChunks
    lChunksp := if cNext mem h.lChunks = 0 then none else h.lChunksp }

/-- The header after the next unused chunk has been taken. -/
def tookFresh (h : SLZone) (bitmap : Nat → Bool) : SLZone :=
  { h with bitmap, uIndex := Slot.next h.nmax h.uIndex }

theorem takeNear (ok : ZoneOk k mem held z h kind (i :: near) far) (size : Nat) (flags : Flags) :
    ∃ bitmap, h.takeChunk k z mem size flags = .ok (h.chunkAt i, flags, tookNear h mem bitmap) ∧
      ZoneOk k mem (fun p => p = h.chunkAt i ∨ held p) z (tookNear h mem bitmap)
        (Function.update kind i .busy) near far := by
  obtain ⟨inside, there⟩ := (ok.slots.mem_near i).mp List.mem_cons_self
  obtain ⟨here, nonnull, rest⟩ := ok.lChunks
  have tail := ok.lChunksp.uncons
  obtain ⟨bitmap, marked, set⟩ := ok.shape.markAllocated_spec inside fun invariants => by
    rw [← Bool.not_eq_true, ok.bits invariants i inside, there]
    decide
  refine ⟨bitmap, ?_, ?_⟩
  · unfold SLZone.takeChunk
    rw [here, if_pos nonnull]
    simp only [marked]
    rw [tookNear, here]
  · constructor
    · exact ok.shape.congr rfl
    · exact ok.slots.take
    · intro j below
      show _ ↔ h.chunkAt j = h.chunkAt i ∨ held (h.chunkAt j)
      exact ok.held_cons i j below
    · show Chain (cNext mem) (near.map h.chunkAt) (cNext mem h.lChunks)
      rw [here]
      exact rest
    · show Tail (near.map h.chunkAt) (if cNext mem h.lChunks = 0 then none else h.lChunksp)
      rw [here]
      by_cases last : near.map h.chunkAt = []
      · have zero : cNext mem (h.chunkAt i) = 0 := by
          have rest : Chain (cNext mem) (near.map h.chunkAt) (cNext mem (h.chunkAt i)) := rest
          rw [last] at rest
          exact rest
        rw [if_pos zero]
        rwa [if_pos last] at tail
      · have more : cNext mem (h.chunkAt i) ≠ 0 := by
          intro zero
          have rest : Chain (cNext mem) (near.map h.chunkAt) (cNext mem (h.chunkAt i)) := rest
          rw [zero] at rest
          exact last rest.eq_nil
        rw [if_neg more]
        rwa [if_neg last] at tail
    · exact ok.rChunks
    · exact fun clean j below fresh => ok.zeroed_cons .busy (by decide) clean below fresh
    · exact ok.bits_cons (by rw [there]; decide) set

theorem takeFresh (ok : ZoneOk k mem held z h kind [] far)
    (some : 0 < Slot.window h.nmax h.uEndIndex h.uIndex) (flags : Flags) :
    ∃ bitmap, h.takeChunk k z mem h.chunkSize flags =
        .ok (h.chunkAt (Slot.next h.nmax h.uIndex), if h.unotzerod then flags else flags.passive,
          tookFresh h bitmap) ∧
      ZoneOk k mem (fun p => p = h.chunkAt (Slot.next h.nmax h.uIndex) ∨ held p) z (tookFresh h bitmap)
        (Function.update kind (Slot.next h.nmax h.uIndex) .busy) [] far := by
  have onwards : Slot.next h.nmax h.uIndex ≠ h.uEndIndex := by
    intro round
    rw [Slot.next_eq_iff ok.slots.used_lt ok.slots.last_lt] at round
    omega
  have inside := Slot.next_lt ok.slots.used_lt
  have fresh := ok.slots.fresh_next onwards
  have empty : h.lChunks = 0 := ok.lChunks
  have moved : Shape k z { h with uIndex := Slot.next h.nmax h.uIndex } := ok.shape.congr rfl
  obtain ⟨bitmap, marked, set⟩ := moved.markAllocated_spec inside fun invariants => by
    show h.bitmap _ = false
    rw [← Bool.not_eq_true, ok.bits invariants _ inside, fresh]
    decide
  have found : SLZone.markAllocated k z { h with uIndex := Slot.next h.nmax h.uIndex }
      (h.basePtr + Slot.next h.nmax h.uIndex * h.chunkSize) = _ := marked
  refine ⟨bitmap, ?_, ?_⟩
  · unfold SLZone.takeChunk
    rw [if_neg (fun nonnull => nonnull empty)]
    have stepped : (if h.uIndex + 1 ≠ h.nmax then h.uIndex + 1 else 0) = Slot.next h.nmax h.uIndex := rfl
    rw [stepped, if_neg onwards]
    simp only [found]
    rfl
  · constructor
    · exact ok.shape.congr rfl
    · exact ok.slots.advance onwards
    · exact ok.held_cons _
    · exact ok.lChunks
    · exact ok.lChunksp
    · exact ok.rChunks
    · exact fun clean j below fresh => ok.zeroed_cons .busy (by decide) clean below fresh
    · exact ok.bits_cons (by rw [fresh]; decide) set

/-- The fields of a header that taking a chunk does not touch. -/
def Taken (h h' : SLZone) : Prop :=
  ∃ lChunks lChunksp uIndex bitmap, h' = { h with lChunks, lChunksp, uIndex, bitmap }

/-- As long as `z_NFree` says so there is a chunk to take; one from the window of a clean zone is zero. -/
theorem takeChunk (ok : ZoneOk k mem held z h kind near far)
    (some : 0 < near.length + Slot.window h.nmax h.uEndIndex h.uIndex) (flags : Flags) :
    ∃ i flags' h' near', h.takeChunk k z mem h.chunkSize flags = .ok (h.chunkAt i, flags', h') ∧
      i < h.nmax ∧ (kind i = .near ∨ kind i = .fresh) ∧ Taken h h' ∧
      ZoneOk k mem (fun p => p = h.chunkAt i ∨ held p) z h' (Function.update kind i .busy) near' far ∧
      near'.length + Slot.window h'.nmax h'.uEndIndex h'.uIndex + 1 =
        near.length + Slot.window h.nmax h.uEndIndex h.uIndex ∧
      (flags' = flags ∨ flags' = flags.passive ∧
        ∀ a, h.chunkAt i ≤ a → a < h.chunkAt i + h.chunkSize → mem a = 0) := by
  cases near with
  | nil =>
      rw [List.length_nil, Nat.zero_add] at some
      obtain ⟨bitmap, call, taken⟩ := ok.takeFresh some flags
      have onwards : Slot.next h.nmax h.uIndex ≠ h.uEndIndex := by
        intro round
        rw [Slot.next_eq_iff ok.slots.used_lt ok.slots.last_lt] at round
        omega
      have inside := Slot.next_lt ok.slots.used_lt
      have fresh := ok.slots.fresh_next onwards
      refine ⟨_, _, _, [], call, inside, .inr fresh, ⟨h.lChunks, h.lChunksp, _, bitmap, rfl⟩, taken, ?_, ?_⟩
      · rw [List.length_nil, Nat.zero_add, Nat.zero_add]
        exact Slot.window_next ok.slots.used_lt ok.slots.last_lt onwards
      · cases clean : h.unotzerod with
        | true => exact .inl rfl
        | false => exact .inr ⟨rfl, ok.zeroed clean _ inside fresh⟩
  | cons i near =>
      obtain ⟨bitmap, call, taken⟩ := ok.takeNear h.chunkSize flags
      obtain ⟨inside, there⟩ := (ok.slots.mem_near i).mp List.mem_cons_self
      refine ⟨i, flags, _, near, call, inside, .inl there, ⟨_, _, h.uIndex, bitmap, rfl⟩, taken, ?_, .inl rfl⟩
      rw [List.length_cons]
      show near.length + Slot.window h.nmax h.uEndIndex h.uIndex + 1 = _
      omega

/-- The memory in which a chunk has been linked. -/
theorem linked (ok : ZoneOk k mem held z h kind near far) (i head : Nat) :
    (∀ j, j ≠ i → cNext (mem.poke (h.chunkAt i) 8 head) (h.chunkAt j) = cNext mem (h.chunkAt j)) ∧
      (head < 2 ^ 64 → cNext (mem.poke (h.chunkAt i) 8 head) (h.chunkAt i) = head) ∧
      ∀ j, j ≠ i → ∀ a, h.chunkAt j ≤ a → a < h.chunkAt j + h.chunkSize →
        mem.poke (h.chunkAt i) 8 head a = mem a := by
  have size := ok.shape.size_pos
  have away : ∀ j, j ≠ i → ∀ a, h.chunkAt j ≤ a → a < h.chunkAt j + h.chunkSize →
      mem.poke (h.chunkAt i) 8 head a = mem a := by
    intro j other a lower upper
    apply Mem.blit_outside
    have apart := Shape.chunk_apart h other
    rw [length_leBytes]
    omega
  refine ⟨fun j other => ?_, fun small => ?_, away⟩
  · exact cNext_congr ok.shape j (away j other)
  · unfold cNext
    rw [Mem.peek_poke_same]
    exact Nat.mod_eq_of_lt small

/-- The head of a list of chunks is an address. -/
theorem head_lt (shape : Shape k z h) {xs : List Nat} {p : Nat} (chain : Chain (cNext mem) (xs.map h.chunkAt) p)
    (inside : ∀ i ∈ xs, i < h.nmax) : p < 2 ^ 64 := by
  cases xs with
  | nil =>
      have null : p = 0 := chain
      rw [null]
      decide
  | cons i xs =>
      have first : p = h.chunkAt i := chain.1
      rw [first]
      exact shape.chunkAt_lt (inside i List.mem_cons_self)

/-- The chunks held after one has been freed. -/
theorem held_filter (ok : ZoneOk k mem held z h kind near far) (place : Slot) (freed : place ≠ .busy) (i : Nat) :
    ∀ j, j < h.nmax → (Function.update kind i place j = .busy ↔ h.chunkAt j ≠ h.chunkAt i ∧ held (h.chunkAt j)) := by
  intro j below
  rcases eq_or_ne j i with rfl | other
  · simp [freed]
  · rw [Function.update_of_ne other, ok.held_iff j below]
    constructor
    · exact fun held => ⟨fun same => other (ok.shape.chunkAt_inj same), held⟩
    · exact fun both => both.2

/-- A chunk that was handed out goes to the front of `z_LChunks`. -/
theorem give (ok : ZoneOk k mem held z h kind near far) (inside : i < h.nmax) (busy : kind i = .busy)
    {bitmap : Nat → Bool} (marked : k.invariants → bitmap = Function.update h.bitmap i false) :
    ZoneOk k (mem.poke (h.chunkAt i) 8 h.lChunks) (fun p => p ≠ h.chunkAt i ∧ held p) z
      { h with
        bitmap
        lChunks := h.chunkAt i
        lChunksp := if cNext (mem.poke (h.chunkAt i) 8 h.lChunks) (h.chunkAt i) = 0 then some (h.chunkAt i)
          else h.lChunksp }
      (Function.update kind i .near) (i :: near) far := by
  have small := head_lt ok.shape ok.lChunks fun j member => ((ok.slots.mem_near j).mp member).1
  obtain ⟨others, here, away⟩ := ok.linked i h.lChunks
  have here := here small
  have missing : ∀ {j}, kind j ≠ .busy → j ≠ i := by
    rintro j other rfl
    exact other busy
  constructor
  · exact ok.shape.congr rfl
  · exact ok.slots.give inside busy
  · exact ok.held_filter .near (by decide) i
  · show Chain _ ((i :: near).map h.chunkAt) (h.chunkAt i)
    rw [List.map_cons, Chain.cons_iff, here]
    refine ⟨rfl, ok.shape.chunkAt_pos i, ?_⟩
    apply ok.lChunks.congr
    intro node member
    obtain ⟨j, listed, rfl⟩ := List.mem_map.mp member
    exact others j (missing (by rw [((ok.slots.mem_near j).mp listed).2]; decide))
  · show Tail (h.chunkAt i :: near.map h.chunkAt)
      (if cNext (mem.poke (h.chunkAt i) 8 h.lChunks) (h.chunkAt i) = 0 then some (h.chunkAt i) else h.lChunksp)
    rw [here]
    have tail := @Tail.cons _ _ (h.chunkAt i) ok.lChunksp
    by_cases last : near.map h.chunkAt = []
    · have zero : h.lChunks = 0 := by
        have chain := ok.lChunks
        rw [last] at chain
        exact chain
      rw [if_pos zero]
      rwa [if_pos last] at tail
    · have more : h.lChunks ≠ 0 := by
        intro zero
        have chain := ok.lChunks
        rw [zero] at chain
        exact last chain.eq_nil
      rw [if_neg more]
      rwa [if_neg last] at tail
  · apply ok.rChunks.congr
    intro node member
    obtain ⟨j, listed, rfl⟩ := List.mem_map.mp member
    exact others j (missing (by rw [((ok.slots.mem_far j).mp listed).2]; decide))
  · intro clean j below fresh a lower upper
    have other : j ≠ i := by
      rintro rfl
      rw [Function.update_self] at fresh
      cases fresh
    rw [away j other a lower upper]
    exact ok.zeroed_cons .near (by decide) clean below fresh a lower upper
  · intro invariants j below
    show bitmap j = true ↔ _
    rw [marked invariants]
    rcases eq_or_ne j i with rfl | other
    · simp
    · rw [Function.update_of_ne other, Function.update_of_ne other, ok.bits invariants j below]

/-- A chunk freed by another cpu goes to the front of `z_RChunks`. -/
theorem giveFar (ok : ZoneOk k mem held z h kind near far) (inside : i < h.nmax) (busy : kind i = .busy)
    (rCount : Int) :
    ZoneOk k (mem.poke (h.chunkAt i) 8 h.rChunks) (fun p => p ≠ h.chunkAt i ∧ held p) z
      { h with rCount, rChunks := h.chunkAt i } (Function.update kind i .far) near (i :: far) := by
  have small := head_lt ok.shape ok.rChunks fun j member => ((ok.slots.mem_far j).mp member).1
  obtain ⟨others, here, away⟩ := ok.linked i h.rChunks
  have here := here small
  have missing : ∀ {j}, kind j ≠ .busy → j ≠ i := by
    rintro j other rfl
    exact other busy
  constructor
  · exact ok.shape.congr rfl
  · exact ok.slots.giveFar inside busy
  · exact ok.held_filter .far (by decide) i
  · apply ok.lChunks.congr
    intro node member
    obtain ⟨j, listed, rfl⟩ := List.mem_map.mp member
    exact others j (missing (by rw [((ok.slots.mem_near j).mp listed).2]; decide))
  · exact ok.lChunksp
  · show Chain _ ((i :: far).map h.chunkAt) (h.chunkAt i)
    rw [List.map_cons, Chain.cons_iff, here]
    refine ⟨rfl, ok.shape.chunkAt_pos i, ?_⟩
    apply ok.rChunks.congr
    intro node member
    obtain ⟨j, listed, rfl⟩ := List.mem_map.mp member
    exact others j (missing (by rw [((ok.slots.mem_far j).mp listed).2]; decide))
  · intro clean j below fresh a lower upper
    have other : j ≠ i := by
      rintro rfl
      rw [Function.update_self] at fresh
      cases fresh
    rw [away j other a lower upper]
    exact ok.zeroed_cons .far (by decide) clean below fresh a lower upper
  · intro invariants j below
    show h.bitmap j = true ↔ _
    rw [ok.bits invariants j below]
    rcases eq_or_ne j i with rfl | other
    · simp [busy]
    · rw [Function.update_of_ne other]

end ZoneOk

end Dragonfly.Kern.Slab
