import Mathlib.Data.List.Basic
import Dragonfly.Kern.Slab.Owner

/-!
# Handing out a chunk

`kmalloc` out of a zone keeps the allocator's invariant, and what it returns has
no byte in common with a live block.
-/

namespace Dragonfly.Kern.Slab

open Lib

variable {k : Kernel} {s s' : State} {z z' p : Nat} {h h' : SLZone} {b c : Block} {kind : Nat → Slot}
  {near far : List Nat} {flags : Flags} {size bytes : Nat} {zi : Int}

/-- What a caller of `kmalloc` gets. -/
structure Returned (k : Kernel) (s s' : State) (bytes : Nat) (flags : Flags) (p size : Nat) : Prop where
  live : s'.live = ⟨p, size⟩ :: s.live
  apart : ∀ b ∈ s.live, b.Apart ⟨p, size⟩
  long : bytes ≤ size
  zero : flags.zero → ∀ a, p ≤ a → a < p + size → s'.mem a = 0
  /-- It is inside one zone, above the header, or it came from `kmem_slab_alloc`. -/
  inside : (∃ z h, s'.Active z h ∧ size = h.chunkSize ∧ z + k.headerSize size ≤ p ∧ p + size ≤ z + k.zoneSize ∧
      ∀ e, size = 2 ^ e → 2 ^ e ∣ p) ∨
    k.oversized bytes ∧ pageSize ∣ p ∧ pageSize ∣ size

/-- The end of `kmalloc` writes to the chunk only, clears it when told to, and leaves it when it is zero already. -/
theorem done_spec (k : Kernel) (flags : Flags) (chunk : Nat) {size : Nat} (large : 8 ≤ size) (s : State) :
    ∃ mem, done k flags chunk size s = (.chunk chunk size, { s with mem, live := ⟨chunk, size⟩ :: s.live }) ∧
      (∀ a, a < chunk ∨ chunk + size ≤ a → mem a = s.mem a) ∧
      (flags.zero = true → ∀ a, chunk ≤ a → a < chunk + size → mem a = 0) ∧
      (flags.zero = false → flags.passiveZero = true → mem = s.mem) := by
  unfold done
  refine ⟨_, rfl, ?_, ?_, ?_⟩
  · intro a outside
    split
    · apply Mem.blit_outside
      rwa [List.length_replicate]
    · split
      · refine (Mem.blit_outside ?_).trans ?_
        · rw [length_leBytes]
          omega
        · split
          · apply Mem.blit_outside
            rwa [List.length_replicate]
          · rfl
      · rfl
  · intro zero a lower upper
    rw [if_pos zero]
    obtain ⟨i, rfl⟩ := Nat.exists_eq_add_of_le lower
    have inside : i < size := by omega
    rw [Mem.blit_inside (by rwa [List.length_replicate])]
    simp [List.getD_eq_getElem?_getD, inside]
  · intro notZero passive
    simp [notZero, passive]

/-- Passing `M_ZERO` on, or dropping it when the chunk is zero already, leaves the chunk zero. -/
theorem zero_of_flags {flags' : Flags} {mem mem' : Mem}
    (either : flags' = flags ∨ flags' = flags.passive ∧ ∀ a, p ≤ a → a < p + size → mem a = 0)
    (cleared : flags'.zero = true → ∀ a, p ≤ a → a < p + size → mem' a = 0)
    (left : flags'.zero = false → flags'.passiveZero = true → mem' = mem) :
    flags.zero → ∀ a, p ≤ a → a < p + size → mem' a = 0 := by
  intro zero a lower upper
  rcases either with rfl | ⟨rfl, clean⟩
  · exact cleared zero a lower upper
  · rw [left rfl rfl]
    exact clean a lower upper

/-- A chunk that is not handed out has no byte in common with a live block. -/
theorem Use.apart_of_free (use : Use k s) (active : s.Active z h) {i : Nat} (inside : i < h.nmax)
    (free : ¬Held s.live (h.chunkAt i)) (held : b ∈ s.live) : b.Apart ⟨h.chunkAt i, h.chunkSize⟩ := by
  obtain ⟨home, mapped, covers, either⟩ := use.live_home held
  by_cases same : home.ptr = z
  · rcases either with ⟨big, rfl⟩ | ⟨h', j, active', -, below, rfl⟩
    · have none := big.noZone
      rw [same, active.1] at none
      cases none
    · rw [same] at active'
      obtain rfl : h' = h := Option.some.inj (active'.1.symm.trans active.1)
      have other : j ≠ i := by
        rintro rfl
        exact free ⟨_, held, rfl⟩
      exact Shape.chunk_apart h' other
  · have apart := use.apart_of_ne mapped (use.place z h active.1).2 same
    exact apart.mono covers (chunk_covered (use.shape active) inside)

/-! ## From a zone of the list -/

theorem ZoneOk.header {mem : Mem} {held : Nat → Prop} (ok : ZoneOk k mem held z h kind near far)
    (nfree : Int) (rSignal : Nat) (rCount : Int) :
    ZoneOk k mem held z { h with nfree, rSignal, rCount } kind near far where
  shape := ok.shape.congr rfl
  slots := ok.slots
  held_iff := ok.held_iff
  lChunks := ok.lChunks
  lChunksp := ok.lChunksp
  rChunks := ok.rChunks
  zeroed := ok.zeroed
  bits := ok.bits

/-- What draining writes lies in the zone. -/
theorem ZoneOk.sameBut_outside {mem mem' : Mem} {held : Nat → Prop} (ok : ZoneOk k mem held z h kind near far)
    (same : SameBut h mem mem' near) : ∀ a, a < z ∨ z + k.zoneSize ≤ a → mem' a = mem a := by
  intro a away
  apply same
  intro i listed
  have covered := Use.chunk_covered ok.shape ((ok.slots.mem_near i).mp listed).1
  have size := ok.shape.size_pos
  unfold Block.Covers Block.stop at covered
  simp only at covered
  omega

/-- The header and the lists when the count has been lowered and the last chunk provided for. -/
structure Provided (k : Kernel) (s : State) (z : Nat) (h h' : SLZone) (mem : Mem) (zoneAry : Int → List Nat) :
    Prop where
  layout : h'.layout = h.layout
  magic : h'.magic = h.magic
  rCount : h'.rCount = h.rCount
  zone : ∃ kind near far, ZoneOk k mem (Held s.live) z h' kind near far ∧
    h'.nfree + 1 = (near.length + Slot.window h'.nmax h'.uEndIndex h'.uIndex : Nat)
  nonneg : 0 ≤ h'.nfree
  outside : ∀ a, a < z ∨ z + k.zoneSize ≤ a → mem a = s.mem a
  nodup : ∀ zi, (zoneAry zi).Nodup
  others : ∀ zi z', z' ≠ z → (z' ∈ zoneAry zi ↔ z' ∈ s.zoneAry zi)
  own : ∀ zi, z ∈ zoneAry zi ↔ zi = h.zoneIndex ∧ h'.nfree ≠ 0

/-- A zone that is in use is on no list but that of its index. -/
theorem Use.mem_ary (use : Use k s) (active : s.Active z h) (member : z ∈ s.zoneAry zi) : zi = h.zoneIndex := by
  obtain ⟨h', active', same⟩ := use.ary zi z member
  obtain rfl := Option.some.inj (active'.1.symm.trans active.1)
  exact same.symm

theorem Use.lastChunk (use : Use k s) (active : s.Active z h) {rest : List Nat}
    (first : s.zoneAry h.zoneIndex = z :: rest) (last : h.nfree = 1) :
    ∃ h' mem zoneAry, Slab.lastChunk k h.zoneIndex z { h with nfree := h.nfree - 1 } s =
        .ok (h', { s with mem, zoneAry }) ∧
      Provided k s z h h' mem zoneAry := by
  obtain ⟨kind, near, far, ok, counted⟩ := use.zones z h active
  have counted : h.nfree = (near.length + Slot.window h.nmax h.uEndIndex h.uIndex : Nat) := counted
  have distinct := use.aryNodup h.zoneIndex
  rw [first, List.nodup_cons] at distinct
  unfold Slab.lastChunk
  have zero : h.nfree - 1 = 0 := by omega
  simp only [zero]
  rw [if_neg (fun some => some rfl)]
  -- RSignal is raised when there is nothing to fetch; either way the header is this one.
  obtain ⟨rSignal, signalled⟩ : ∃ rSignal, (if h.rChunks = 0 then { h with nfree := 0, rSignal := 1 }
      else { h with nfree := 0 } : SLZone) = { h with nfree := 0, rSignal } := by
    split
    · exact ⟨1, rfl⟩
    · exact ⟨h.rSignal, rfl⟩
  rw [signalled]
  obtain ⟨h₁, mem, call, drained, same, moved⟩ := (ok.header 0 rSignal h.rCount).drain
  rw [call]
  have outside := ok.sameBut_outside same
  have window : Slot.window h₁.nmax h₁.uEndIndex h₁.uIndex = Slot.window h.nmax h.uEndIndex h.uIndex :=
    drained.window
  have nfree : h₁.nfree = 0 + (far.length : Int) := drained.nfree
  simp only
  by_cases none : h₁.nfree = 0
  · rw [if_pos none]
    refine ⟨h₁, mem, _, rfl, ⟨drained.layout, drained.magic, drained.rCount, ⟨_, _, _, moved, ?_⟩, ?_, outside,
      ?_, ?_, ?_⟩⟩
    · rw [List.length_append, window]
      omega
    · omega
    · intro zi
      rcases eq_or_ne zi h.zoneIndex with rfl | other
      · rw [Function.update_self, first]
        exact distinct.2
      · rw [Function.update_of_ne other]
        exact use.aryNodup zi
    · intro zi z' elsewhere
      rcases eq_or_ne zi h.zoneIndex with rfl | other
      · rw [Function.update_self, first, List.tail_cons, List.mem_cons]
        exact ⟨.inr, fun either => either.resolve_left elsewhere⟩
      · rw [Function.update_of_ne other]
    · intro zi
      constructor
      · intro member
        rcases eq_or_ne zi h.zoneIndex with rfl | other
        · rw [Function.update_self, first, List.tail_cons] at member
          exact absurd member distinct.1
        · rw [Function.update_of_ne other] at member
          exact absurd (use.mem_ary active member) other
      · exact fun both => absurd none both.2
  · rw [if_neg none]
    refine ⟨{ h₁ with rSignal := 0 }, mem, _, rfl, ⟨drained.layout, drained.magic, drained.rCount,
      ⟨_, _, _, moved.header h₁.nfree 0 h₁.rCount, ?_⟩, show 0 ≤ h₁.nfree by omega, outside, use.aryNodup, fun _ _ _ => Iff.rfl, ?_⟩⟩
    · show h₁.nfree + 1 = ((near ++ far).length + Slot.window h₁.nmax h₁.uEndIndex h₁.uIndex : Nat)
      rw [List.length_append, window]
      omega
    · intro zi
      constructor
      · exact fun member => ⟨use.mem_ary active member, none⟩
      · rintro ⟨rfl, -⟩
        rw [first]
        exact List.mem_cons_self

theorem Use.provide (use : Use k s) (active : s.Active z h) {rest : List Nat}
    (first : s.zoneAry h.zoneIndex = z :: rest) :
    ∃ h' mem zoneAry,
      (if h.nfree - 1 ≤ 0 then Slab.lastChunk k h.zoneIndex z { h with nfree := h.nfree - 1 } s
        else .ok ({ h with nfree := h.nfree - 1 }, s)) = .ok (h', { s with mem, zoneAry }) ∧
      Provided k s z h h' mem zoneAry := by
  have listed : z ∈ s.zoneAry h.zoneIndex := by
    rw [first]
    exact List.mem_cons_self
  have some := (use.listed z h active).mp listed
  obtain ⟨kind, near, far, ok, counted⟩ := use.zones z h active
  have counted : h.nfree = (near.length + Slot.window h.nmax h.uEndIndex h.uIndex : Nat) := counted
  by_cases last : h.nfree - 1 ≤ 0
  · rw [if_pos last]
    exact use.lastChunk active first (by omega)
  · rw [if_neg last]
    refine ⟨_, s.mem, s.zoneAry, rfl, ⟨rfl, rfl, rfl, ⟨kind, near, far, ok.header _ h.rSignal h.rCount, ?_⟩,
      show 0 ≤ h.nfree - 1 by omega, fun _ _ => rfl, use.aryNodup, fun _ _ _ => Iff.rfl, fun zi => ?_⟩⟩
    · show h.nfree - 1 + 1 = (near.length + Slot.window h.nmax h.uEndIndex h.uIndex : Nat)
      omega
    · constructor
      · exact fun member => ⟨use.mem_ary active member, by show h.nfree - 1 ≠ 0; omega⟩
      · rintro ⟨rfl, -⟩
        exact listed

/-- A chunk out of the first zone of the list. -/
theorem Use.fromZone (use : Use k s) (active : s.Active z h) {rest : List Nat}
    (first : s.zoneAry h.zoneIndex = z :: rest) (long : bytes ≤ h.chunkSize) (flags : Flags) :
    ∃ p s', Slab.fromZone k h.zoneIndex z h h.chunkSize flags s = .ok (.chunk p h.chunkSize, s') ∧ Use k s' ∧
      Returned k s s' bytes flags p h.chunkSize := by
  obtain ⟨h₁, mem₁, zoneAry, provided, step⟩ := use.provide active first
  obtain ⟨chunkAt, size, nmax, index⟩ := SLZone.chunkAt_congr step.layout
  obtain ⟨kind, near, far, ok, counted⟩ := step.zone
  have enough : 0 < near.length + Slot.window h₁.nmax h₁.uEndIndex h₁.uIndex := by
    have nonneg := step.nonneg
    omega
  obtain ⟨i, flags', h₂, near', call, inside, unused, ⟨_, _, _, _, taken⟩, ok₂, fewer, either⟩ :=
    ok.takeChunk enough flags
  rw [chunkAt, size] at call
  obtain ⟨mem₂, finished, elsewhere, cleared, left⟩ := done_spec k flags' (h.chunkAt i) ok.shape.size_pos
    { s with mem := mem₁, zoneAry, zone := Function.update s.zone z (some h₂) }
  rw [size] at finished elsewhere cleared
  have free : ¬Held s.live (h.chunkAt i) := by
    rw [← chunkAt, ← ok.held_iff i inside]
    intro busy
    rcases unused with near | fresh
    · exact nomatch busy.symm.trans near
    · exact nomatch busy.symm.trans fresh
  rw [nmax] at inside
  have covered := Use.chunk_covered (use.shape active) inside
  have change : ZoneChange k s z h h₂ mem₂ (⟨h.chunkAt i, h.chunkSize⟩ :: s.live) zoneAry s.messages := by
    have layout₂ : h₂.layout = h₁.layout := by rw [taken]; rfl
    have nfree : h₂.nfree = h₁.nfree := by rw [taken]
    constructor
    · exact layout₂.trans step.layout
    · rw [taken]
      exact step.magic
    · refine ⟨Function.update kind i .busy, near', far, ?_, ?_⟩
      · have written : ZoneOk k mem₂ _ z h₂ _ near' far := ok₂.write fun j below other a lower upper => by
          apply elsewhere
          obtain ⟨chunkAt₂, size₂, -, -⟩ := SLZone.chunkAt_congr (layout₂.trans step.layout)
          have different : j ≠ i := by
            rintro rfl
            exact other (Function.update_self ..)
          rw [chunkAt₂] at lower upper
          rw [size₂] at upper
          have apart := Shape.chunk_apart h different
          omega
        apply written.held_congr
        intro j below
        rw [chunkAt]
        constructor
        · rintro ⟨b, member, same⟩
          rcases List.mem_cons.mp member with rfl | old
          · exact .inl same.symm
          · exact .inr ⟨b, old, same⟩
        · rintro (same | ⟨b, old, same⟩)
          · exact ⟨_, List.mem_cons_self, same.symm⟩
          · exact ⟨b, List.mem_cons_of_mem _ old, same⟩
      · unfold Counted
        omega
    · intro a away
      have outside := step.outside a away
      unfold Block.Covers Block.stop at covered
      simp only at covered
      rw [elsewhere a (by omega)]
      exact outside
    · intro b member
      rcases List.mem_cons.mp member with rfl | old
      · exact .inr ⟨i, inside, rfl⟩
      · exact .inl old
    · exact fun b member => .inl (List.mem_cons_of_mem _ member)
    · exact step.nodup
    · exact step.others
    · rw [nfree]
      exact step.own
    · rw [taken]
      exact step.rCount.trans (use.rCount z h active)
    · exact fun _ _ => rfl
  have slab : h₂.magic = zallocSlabMagic := change.magic.trans active.2
  refine ⟨h.chunkAt i, _, ?_, use.zoneStep active change, ?_⟩
  · unfold Slab.fromZone
    simp only [provided, call, finished]
    rfl
  · constructor
    · rfl
    · exact fun b held => use.apart_of_free active inside free held
    · exact long
    · rw [chunkAt, size] at either
      exact zero_of_flags either cleared left
    · left
      obtain ⟨-, size₂, -, -⟩ := SLZone.chunkAt_congr change.layout
      refine ⟨z, h₂, State.withZone_active_self s h₂ slab, size₂.symm, (use.shape active).chunkAt_lower i,
        (use.shape active).chunkAt_upper inside, fun e power => ?_⟩
      exact (use.shape active).pow_dvd_chunkAt power i

end Dragonfly.Kern.Slab
