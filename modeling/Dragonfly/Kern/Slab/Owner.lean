import Mathlib.Data.List.Basic
import Mathlib.Data.List.Pairwise
import Dragonfly.Kern.Slab.Chunk

/-!
# The allocator's invariant

`Use` says what every piece of memory from `kmem_slab_alloc` is in use for: a zone
on a `ZoneAry` list, a zone all of whose chunks are taken, a retired zone on
`FreeZones`, an oversized block that is handed out, or one on `FreeOvZones`.  A
change to one zone is described by `Use.zoneStep`.
-/

namespace Dragonfly.Kern.Slab

open Lib

variable {k : Kernel} {s s' : State} {z z' p : Nat} {h h' : SLZone} {b c : Block}

namespace Block

theorem Apart.symm (apart : b.Apart c) : c.Apart b := Or.symm apart

instance : Std.Symm Block.Apart := ⟨fun _ _ apart => apart.symm⟩

/-- What lies in blocks without a common byte has no common byte. -/
theorem Apart.mono {b' c' : Block} (apart : b.Apart c) (first : b.Covers b') (second : c.Covers c') :
    b'.Apart c' := by
  unfold Apart Covers stop at *
  omega

theorem Apart.ptr_ne (apart : b.Apart c) (some : 0 < b.len) (more : 0 < c.len) : b.ptr ≠ c.ptr := by
  unfold Apart stop at apart
  omega

end Block

/-- There is a live block at this address. -/
def Held (live : List Block) (p : Nat) : Prop := ∃ b ∈ live, b.ptr = p

/-- The zone is in use. -/
def State.Active (s : State) (z : Nat) (h : SLZone) : Prop := s.zone z = some h ∧ h.magic = zallocSlabMagic

/-- A live block that is a chunk of a zone. -/
def State.IsChunk (s : State) (b : Block) : Prop :=
  ∃ z h i, s.Active z h ∧ i < h.nmax ∧ b = ⟨h.chunkAt i, h.chunkSize⟩

/-- A live block that came from `kmem_slab_alloc` directly. -/
structure Big (kup : Nat → Int) (kernelMap : List Block) (zone : Nat → Option SLZone) (b : Block) : Prop where
  count : 0 < kup (b.ptr / pageSize)
  aligned : pageSize ∣ b.ptr
  length : b.len = (kup (b.ptr / pageSize)).toNat * pageSize
  mapped : b ∈ kernelMap
  noZone : zone b.ptr = none

abbrev State.IsBig (s : State) (b : Block) : Prop := Big s.kup s.kernelMap s.zone b

/-- What a call that waits in `kmem_slab_alloc` has asked for. -/
def Request.Ok (k : Kernel) : Request → Prop
  | .oversized bytes size _ => k.oversized bytes ∧ bytes ≤ size ∧ 0 < size ∧ pageSize ∣ size
  | .zone bytes zi size _ => bytes ≤ size ∧ ChunkSize k zi size

/-- The allocator's invariant. -/
structure Use (k : Kernel) (s : State) : Prop where
  zones : ∀ z h, s.Active z h →
    ∃ kind near far, ZoneOk k s.mem (Held s.live) z h kind near far ∧ Counted h near
  place : ∀ z h, s.zone z = some h → k.zoneSize ∣ z ∧ ⟨z, k.zoneSize⟩ ∈ s.kernelMap
  listed : ∀ z h, s.Active z h → (z ∈ s.zoneAry h.zoneIndex ↔ h.nfree ≠ 0)
  aryNodup : ∀ zi, (s.zoneAry zi).Nodup
  ary : ∀ zi, ∀ z ∈ s.zoneAry zi, ∃ h, s.Active z h ∧ h.zoneIndex = zi
  freeNodup : s.freeZones.Nodup
  free : ∀ z, z ∈ s.freeZones ↔ ∃ h, s.zone z = some h ∧ h.magic ≠ zallocSlabMagic
  freeCount : s.nFreeZones = s.freeZones.length
  kupZone : ∀ z h, s.Active z h → s.kup (z / pageSize) = -((k.cpuid : Int) + 1)
  kupBig : ∀ page, 0 < s.kup page → ∃ b ∈ s.live, b.ptr = page * pageSize ∧ s.IsBig b
  live : ∀ b ∈ s.live, s.IsChunk b ∨ s.IsBig b
  ovNodup : (s.freeOvZones.map (·.addr)).Nodup
  ov : ∀ o ∈ s.freeOvZones, o.magic = zallocOvszMagic ∧ s.zone o.addr = none ∧ ¬0 < s.kup (o.addr / pageSize) ∧
    ∃ len, o.chunkSize = (len : Nat) ∧ len < 2 ^ 31 ∧ ⟨o.addr, len⟩ ∈ s.kernelMap
  apart : s.kernelMap.Pairwise Block.Apart
  mapped : ∀ b ∈ s.kernelMap, 0 < b.len ∧ pageSize ∣ b.ptr ∧ k.kvaStart ≤ b.ptr ∧ b.stop ≤ k.kvaEnd
  pending : ∀ request ∈ s.pending, request.Ok k
  rCount : ∀ z h, s.Active z h → h.rCount = (s.messages.count z : Nat)
  messages : ∀ z ∈ s.messages, ∃ h, s.Active z h

namespace Use

/-- Different pieces of the kernel map have no byte in common. -/
theorem apart_of_ne (use : Use k s) (first : b ∈ s.kernelMap) (second : c ∈ s.kernelMap) (other : b.ptr ≠ c.ptr) :
    b.Apart c :=
  use.apart.forall first second fun same => other (congrArg Block.ptr same)

/-- A piece of the kernel map is known by its address. -/
theorem mapped_unique (use : Use k s) (first : b ∈ s.kernelMap) (second : c ∈ s.kernelMap) (same : b.ptr = c.ptr) :
    b = c := by
  by_contra other
  have apart := use.apart.forall first second other
  exact apart.ptr_ne (use.mapped b first).1 (use.mapped c second).1 same

theorem shape (use : Use k s) (active : s.Active z h) : Shape k z h := by
  obtain ⟨kind, near, far, ok, -⟩ := use.zones z h active
  exact ok.shape

/-- A chunk lies in its zone. -/
theorem chunk_covered (shape : Shape k z h) {i : Nat} (inside : i < h.nmax) :
    Block.Covers ⟨z, k.zoneSize⟩ ⟨h.chunkAt i, h.chunkSize⟩ := by
  have lower := shape.chunkAt_lower i
  have upper := shape.chunkAt_upper inside
  unfold Block.Covers Block.stop
  show z ≤ h.chunkAt i ∧ h.chunkAt i + h.chunkSize ≤ z + k.zoneSize
  omega

/-- Zones at different addresses have no byte in common. -/
theorem zones_apart (use : Use k s) (first : s.zone z = some h) (second : s.zone z' = some h') (other : z ≠ z') :
    Block.Apart ⟨z, k.zoneSize⟩ ⟨z', k.zoneSize⟩ :=
  use.apart_of_ne (use.place z h first).2 (use.place z' h' second).2 other

/-- A live block lies in a zone that is in use, or it is a piece of the kernel map of its own. -/
theorem live_home (use : Use k s) (held : b ∈ s.live) :
    ∃ home ∈ s.kernelMap, home.Covers b ∧ (s.IsBig b ∧ home = b ∨
      ∃ h i, s.Active home.ptr h ∧ home.len = k.zoneSize ∧ i < h.nmax ∧ b = ⟨h.chunkAt i, h.chunkSize⟩) := by
  rcases use.live b held with ⟨z, h, i, active, inside, rfl⟩ | big
  · exact ⟨⟨z, k.zoneSize⟩, (use.place z h active.1).2, chunk_covered (use.shape active) inside,
      .inr ⟨h, i, active, rfl, inside, rfl⟩⟩
  · exact ⟨b, big.mapped, ⟨Nat.le_refl _, Nat.le_refl _⟩, .inl ⟨big, rfl⟩⟩

/-- A live block with a byte in a zone that is in use is a chunk of it. -/
theorem chunk_of_inside (use : Use k s) (active : s.Active z h) (held : b ∈ s.live)
    (inside : z ≤ b.ptr ∧ b.ptr < z + k.zoneSize) (some : 0 < b.len) :
    ∃ i, i < h.nmax ∧ b = ⟨h.chunkAt i, h.chunkSize⟩ := by
  obtain ⟨home, mapped, covers, either⟩ := use.live_home held
  have same : home.ptr = z := by
    by_contra other
    have apart := use.apart_of_ne mapped (use.place z h active.1).2 other
    unfold Block.Apart Block.Covers Block.stop at *
    simp only at apart
    omega
  rcases either with ⟨big, rfl⟩ | ⟨h', i, active', -, below, rfl⟩
  · have none := big.noZone
    rw [same, active.1] at none
    cases none
  · rw [same] at active'
    obtain rfl : h' = h := Option.some.inj (active'.1.symm.trans active.1)
    exact ⟨i, below, rfl⟩

theorem live_len (use : Use k s) (held : b ∈ s.live) : 0 < b.len := by
  rcases use.live b held with ⟨z, h, i, active, inside, rfl⟩ | big
  · have size := (use.shape active).size_pos
    show 0 < h.chunkSize
    omega
  · exact (use.mapped b big.mapped).1

/-- Page counts above zero stand at the first page of an oversized block. -/
theorem kup_of_zone (use : Use k s) (here : s.zone z = some h) : ¬0 < s.kup (z / pageSize) := by
  intro count
  obtain ⟨b, -, at', big⟩ := use.kupBig _ count
  have aligned := (use.mapped _ (use.place z h here).2).2.1
  rw [Nat.div_mul_cancel aligned] at at'
  have none := big.noZone
  rw [at', here] at none
  cases none

end Use

/-- Changes of memory and of the live blocks elsewhere leave a zone alone. -/
theorem ZoneOk.frame {mem mem' : Mem} {held held' : Nat → Prop} {kind : Nat → Slot} {near far : List Nat}
    (ok : ZoneOk k mem held z h kind near far) {region : Block} (apart : region.Apart ⟨z, k.zoneSize⟩)
    (outside : ∀ a, a < region.ptr ∨ region.stop ≤ a → mem' a = mem a)
    (others : ∀ a, a < region.ptr ∨ region.stop ≤ a → (held' a ↔ held a)) :
    ZoneOk k mem' held' z h kind near far := by
  have away : ∀ i, i < h.nmax → ∀ a, h.chunkAt i ≤ a → a < h.chunkAt i + h.chunkSize →
      a < region.ptr ∨ region.stop ≤ a := by
    intro i inside a lower upper
    have covered := Use.chunk_covered ok.shape inside
    unfold Block.Apart Block.Covers Block.stop at *
    simp only at *
    omega
  have kept : ZoneOk k mem' held z h kind near far :=
    ok.write fun i inside _ a lower upper => outside a (away i inside a lower upper)
  apply kept.held_congr
  intro i inside
  have size := ok.shape.size_pos
  exact others _ (away i inside _ (Nat.le_refl _) (by omega))

/-! ## A step in one zone -/

theorem SLZone.chunkAt_congr (same : h'.layout = h.layout) :
    h'.chunkAt = h.chunkAt ∧ h'.chunkSize = h.chunkSize ∧ h'.nmax = h.nmax ∧ h'.zoneIndex = h.zoneIndex := by
  unfold SLZone.layout at same
  simp only [Prod.mk.injEq] at same
  obtain ⟨base, nmax, size, index, -⟩ := same
  refine ⟨?_, size, nmax, index⟩
  funext i
  unfold SLZone.chunkAt
  rw [base, size]

/-- An oversized block is not a chunk. -/
theorem Use.big_ne_chunk (use : Use k s) (active : s.Active z h) {i : Nat} (inside : i < h.nmax) (big : s.IsBig b) :
    b ≠ ⟨h.chunkAt i, h.chunkSize⟩ := by
  rintro rfl
  have shape := use.shape active
  have covered := Use.chunk_covered shape inside
  have other : h.chunkAt i ≠ z := by
    intro same
    have none := big.noZone
    rw [show (Block.mk (h.chunkAt i) h.chunkSize).ptr = z from same, active.1] at none
    cases none
  have apart := use.apart_of_ne big.mapped (use.place z h active.1).2 other
  have size := shape.size_pos
  unfold Block.Apart Block.Covers Block.stop at *
  simp only at *
  omega

/-- A zone that is in use changes within its own memory, its own chunks and its own lists. -/
structure ZoneChange (k : Kernel) (s : State) (z : Nat) (h h' : SLZone) (mem : Mem) (live : List Block)
    (zoneAry : Int → List Nat) (messages : List Nat) : Prop where
  layout : h'.layout = h.layout
  magic : h'.magic = h.magic
  zone : ∃ kind near far, ZoneOk k mem (Held live) z h' kind near far ∧ Counted h' near
  outside : ∀ a, a < z ∨ z + k.zoneSize ≤ a → mem a = s.mem a
  gained : ∀ b ∈ live, b ∈ s.live ∨ ∃ i, i < h.nmax ∧ b = ⟨h.chunkAt i, h.chunkSize⟩
  lost : ∀ b ∈ s.live, b ∈ live ∨ ∃ i, i < h.nmax ∧ b = ⟨h.chunkAt i, h.chunkSize⟩
  nodup : ∀ zi, (zoneAry zi).Nodup
  others : ∀ zi z', z' ≠ z → (z' ∈ zoneAry zi ↔ z' ∈ s.zoneAry zi)
  own : ∀ zi, z ∈ zoneAry zi ↔ zi = h.zoneIndex ∧ h'.nfree ≠ 0
  rCount : h'.rCount = (messages.count z : Nat)
  elsewhere : ∀ z', z' ≠ z → messages.count z' = s.messages.count z'

section ZoneStep

variable {mem : Mem} {live : List Block} {zoneAry : Int → List Nat} {messages : List Nat}

/-- The state after a zone has changed. -/
def State.withZone (s : State) (z : Nat) (h' : SLZone) (mem : Mem) (live : List Block)
    (zoneAry : Int → List Nat) (messages : List Nat) : State :=
  { s with zone := Function.update s.zone z (some h'), mem, live, zoneAry, messages }

theorem State.withZone_active_self (s : State) (h' : SLZone) (magic : h'.magic = zallocSlabMagic) :
    (s.withZone z h' mem live zoneAry messages).Active z h' :=
  ⟨Function.update_self .., magic⟩

theorem State.withZone_active_of_ne (other : z' ≠ z) {h'' : SLZone} :
    (s.withZone z h' mem live zoneAry messages).Active z' h'' ↔ s.Active z' h'' := by
  show Function.update s.zone z (some h') z' = some h'' ∧ _ ↔ _
  rw [Function.update_of_ne other]
  rfl

theorem State.withZone_none (here : s.zone z = some h) {a : Nat} :
    (s.withZone z h' mem live zoneAry messages).zone a = none ↔ s.zone a = none := by
  show Function.update s.zone z (some h') a = none ↔ _
  rcases eq_or_ne a z with rfl | other
  · rw [Function.update_self, here]
    exact ⟨nofun, nofun⟩
  · rw [Function.update_of_ne other]

theorem Use.zoneStep (use : Use k s) (active : s.Active z h)
    (change : ZoneChange k s z h h' mem live zoneAry messages) :
    Use k (s.withZone z h' mem live zoneAry messages) := by
  obtain ⟨chunkAt, size, nmax, index⟩ := SLZone.chunkAt_congr change.layout
  have slab : h'.magic = zallocSlabMagic := change.magic.trans active.2
  have itself : (s.withZone z h' mem live zoneAry messages).Active z h' := State.withZone_active_self s h' slab
  have unique : ∀ {h''}, (s.withZone z h' mem live zoneAry messages).Active z h'' → h'' = h' :=
    fun active => Option.some.inj (active.1.symm.trans itself.1)
  have heldOutside : ∀ a, a < z ∨ z + k.zoneSize ≤ a → (Held live a ↔ Held s.live a) := by
    intro a away
    have notChunk : ∀ i, i < h.nmax → h.chunkAt i ≠ a := by
      rintro i inside rfl
      have covered := Use.chunk_covered (use.shape active) inside
      have size := (use.shape active).size_pos
      unfold Block.Covers Block.stop at covered
      simp only at covered
      omega
    constructor
    · rintro ⟨b, member, rfl⟩
      rcases change.gained b member with old | ⟨i, inside, rfl⟩
      · exact ⟨b, old, rfl⟩
      · exact absurd rfl (notChunk i inside)
    · rintro ⟨b, member, rfl⟩
      rcases change.lost b member with kept | ⟨i, inside, rfl⟩
      · exact ⟨b, kept, rfl⟩
      · exact absurd rfl (notChunk i inside)
  have bigs : ∀ {b}, s.IsBig b → (s.withZone z h' mem live zoneAry messages).IsBig b := fun big =>
    ⟨big.count, big.aligned, big.length, big.mapped, (State.withZone_none active.1).mpr big.noZone⟩
  constructor
  · intro z' h'' active'
    rcases eq_or_ne z' z with rfl | other
    · rw [unique active']
      exact change.zone
    · have old := (State.withZone_active_of_ne other).mp active'
      obtain ⟨kind, near, far, ok, counted⟩ := use.zones z' h'' old
      refine ⟨kind, near, far, ?_, counted⟩
      exact ok.frame (use.zones_apart active.1 old.1 other.symm) change.outside heldOutside
  · intro z' h'' here
    rcases eq_or_ne z' z with rfl | other
    · exact use.place z' h active.1
    · exact use.place z' h'' ((Function.update_of_ne other ..).symm.trans here)
  · intro z' h'' active'
    rcases eq_or_ne z' z with rfl | other
    · rw [unique active', index]
      show z' ∈ zoneAry h.zoneIndex ↔ _
      rw [change.own]
      exact ⟨fun both => both.2, fun some => ⟨rfl, some⟩⟩
    · exact (change.others _ z' other).trans (use.listed z' h'' ((State.withZone_active_of_ne other).mp active'))
  · exact change.nodup
  · show ∀ zi, ∀ z' ∈ zoneAry zi, _
    intro zi z' member
    rcases eq_or_ne z' z with rfl | other
    · rw [change.own] at member
      exact ⟨h', itself, index.trans member.1.symm⟩
    · rw [change.others zi z' other] at member
      obtain ⟨h'', old, same⟩ := use.ary zi z' member
      exact ⟨h'', (State.withZone_active_of_ne other).mpr old, same⟩
  · exact use.freeNodup
  · intro z'
    show z' ∈ s.freeZones ↔ _
    rw [use.free z']
    rcases eq_or_ne z' z with rfl | other
    · constructor
      · rintro ⟨h'', here, retired⟩
        rw [active.1] at here
        obtain rfl := Option.some.inj here
        exact absurd active.2 retired
      · rintro ⟨h'', here, retired⟩
        obtain rfl := Option.some.inj (here.symm.trans itself.1)
        exact absurd slab retired
    · show _ ↔ ∃ h'', Function.update s.zone z (some h') z' = some h'' ∧ _
      rw [Function.update_of_ne other]
  · exact use.freeCount
  · intro z' h'' active'
    rcases eq_or_ne z' z with rfl | other
    · exact use.kupZone z' h active
    · exact use.kupZone z' h'' ((State.withZone_active_of_ne other).mp active')
  · intro page count
    obtain ⟨b, held, here, big⟩ := use.kupBig page count
    rcases change.lost b held with kept | ⟨i, inside, same⟩
    · exact ⟨b, kept, here, bigs big⟩
    · exact absurd same (use.big_ne_chunk active inside big)
  · have own : ∀ i, i < h.nmax →
        (s.withZone z h' mem live zoneAry messages).IsChunk ⟨h.chunkAt i, h.chunkSize⟩ := by
      intro i inside
      refine ⟨z, h', i, itself, nmax ▸ inside, ?_⟩
      rw [chunkAt, size]
    intro b member
    rcases change.gained b member with old | ⟨i, inside, rfl⟩
    · rcases use.live b old with ⟨z', h'', i, active', inside, rfl⟩ | big
      · rcases eq_or_ne z' z with rfl | other
        · obtain rfl := Option.some.inj (active'.1.symm.trans active.1)
          exact .inl (own i inside)
        · exact .inl ⟨z', h'', i, (State.withZone_active_of_ne other).mpr active', inside, rfl⟩
      · exact .inr (bigs big)
    · exact .inl (own i inside)
  · exact use.ovNodup
  · intro o member
    obtain ⟨magic, noZone, rest⟩ := use.ov o member
    exact ⟨magic, (State.withZone_none active.1).mpr noZone, rest⟩
  · exact use.apart
  · exact use.mapped
  · exact use.pending
  · intro z' h'' active'
    rcases eq_or_ne z' z with rfl | other
    · rw [unique active']
      exact change.rCount
    · show _ = ((messages.count z' : Nat) : Int)
      rw [change.elsewhere z' other]
      exact use.rCount z' h'' ((State.withZone_active_of_ne other).mp active')
  · intro z' member
    rcases eq_or_ne z' z with rfl | other
    · exact ⟨h', itself⟩
    · have counted : 0 < messages.count z' := List.count_pos_iff.mpr member
      rw [change.elsewhere z' other] at counted
      obtain ⟨h'', old⟩ := use.messages z' (List.count_pos_iff.mp counted)
      exact ⟨h'', (State.withZone_active_of_ne other).mpr old⟩

end ZoneStep

end Dragonfly.Kern.Slab
