import Mathlib.Data.List.Basic
import Dragonfly.Kern.Slab.Take

/-!
# New zones, recycled zones and oversized blocks

A zone begins on memory that nobody uses: a piece `kmem_slab_alloc` has just
handed out, or a zone taken off `FreeZones`.
-/

namespace Dragonfly.Kern.Slab

open Lib

variable {k : Kernel} {s s' : State} {z z' p : Nat} {h h' : SLZone} {b c : Block} {flags : Flags}
  {size bytes : Nat} {zi : Int}

/-- A piece of the kernel map that is in use for nothing. -/
structure Vacant (s : State) (b : Block) : Prop where
  mapped : b ∈ s.kernelMap
  noZone : s.zone b.ptr = none
  kup : ¬0 < s.kup (b.ptr / pageSize)
  ov : ∀ o ∈ s.freeOvZones, o.addr ≠ b.ptr

/-- No live block has a byte in it. -/
theorem Use.vacant_apart (use : Use k s) (vacant : Vacant s b) (held : c ∈ s.live) : c.Apart b := by
  obtain ⟨home, mapped, covers, either⟩ := use.live_home held
  have other : home.ptr ≠ b.ptr := by
    intro same
    rcases either with ⟨big, rfl⟩ | ⟨h, i, active, -, -, rfl⟩
    · have count := big.count
      rw [same] at count
      exact vacant.kup count
    · have none := vacant.noZone
      rw [← same, active.1] at none
      cases none
  exact (use.apart_of_ne mapped vacant.mapped other).mono covers ⟨Nat.le_refl _, Nat.le_refl _⟩

/-- Whether the page counts stand at the first page of a block tells the blocks of the kernel map apart. -/
theorem Use.page_ne (use : Use k s) (first : b ∈ s.kernelMap) (second : c ∈ s.kernelMap) (other : b.ptr ≠ c.ptr) :
    b.ptr / pageSize ≠ c.ptr / pageSize := by
  intro same
  have back : b.ptr / pageSize * pageSize = c.ptr / pageSize * pageSize := by rw [same]
  rw [Nat.div_mul_cancel (use.mapped b first).2.1, Nat.div_mul_cancel (use.mapped c second).2.1] at back
  exact other back

/-! ## A zone begins -/

/-- The chunks of a zone of which only the first has been handed out. -/
theorem ZoneOk.make {mem : Mem} {held : Nat → Prop} (shape : Shape k z h) (inside : h.uIndex < h.nmax)
    (ends : h.uEndIndex = h.uIndex) (empty : h.lChunks = 0 ∧ h.lChunksp = none ∧ h.rChunks = 0)
    (bitmap : h.bitmap = Function.update (fun _ => false) h.uIndex true)
    (zeroed : h.unotzerod = false → ∀ i, i < h.nmax → i ≠ h.uIndex →
      ∀ a, h.chunkAt i ≤ a → a < h.chunkAt i + h.chunkSize → mem a = 0)
    (first : ∀ i, i < h.nmax → (held (h.chunkAt i) ↔ i = h.uIndex)) :
    ZoneOk k mem held z h (fun i => if i = h.uIndex then .busy else .fresh) [] [] where
  shape := shape
  slots := by
    rw [ends]
    exact Slots.init inside
  held_iff i below := by
    rw [first i below]
    split
    case isTrue here => exact ⟨fun _ => here, fun _ => rfl⟩
    case isFalse other => exact ⟨nofun, fun here => absurd here other⟩
  lChunks := empty.1
  lChunksp := empty.2.1
  rChunks := empty.2.2
  zeroed clean i below fresh := by
    apply zeroed clean i below
    rintro rfl
    rw [if_pos rfl] at fresh
    cases fresh
  bits _ i _ := by
    rw [bitmap]
    rcases eq_or_ne i h.uIndex with rfl | other
    · simp
    · simp [other]

/-- The state after a zone with the header `h` has begun at `z` and its chunk `b` has been handed out. -/
def State.withNewZone (k : Kernel) (s : State) (z : Nat) (h : SLZone) (mem : Mem) (b : Block) (junkIndex : Nat) :
    State :=
  { s with
    zoneAry := Function.update s.zoneAry h.zoneIndex (z :: s.zoneAry h.zoneIndex)
    junkIndex
    zone := Function.update s.zone z (some h)
    kup := Function.update s.kup (z / pageSize) (-((k.cpuid : Int) + 1))
    mem
    live := b :: s.live }

/-- A header for the memory at `z`, with one chunk handed out. -/
structure NewZone (k : Kernel) (s : State) (z : Nat) (h : SLZone) (mem : Mem) (b : Block) : Prop where
  magic : h.magic = zallocSlabMagic
  zone : ∃ kind near far, ZoneOk k mem (Held (b :: s.live)) z h kind near far ∧ Counted h near
  outside : ∀ a, a < z ∨ z + k.zoneSize ≤ a → mem a = s.mem a
  first : ∃ i, i < h.nmax ∧ b = ⟨h.chunkAt i, h.chunkSize⟩
  more : h.nfree ≠ 0
  rCount : h.rCount = 0

theorem Use.newZone {mem : Mem} {junkIndex : Nat} (use : Use k s) (vacant : Vacant s ⟨z, k.zoneSize⟩)
    (aligned : k.zoneSize ∣ z) (new : NewZone k s z h mem b) : Use k (s.withNewZone k z h mem b junkIndex) := by
  have noZone : s.zone z = none := vacant.noZone
  have active : (s.withNewZone k z h mem b junkIndex).Active z h := ⟨Function.update_self .., new.magic⟩
  have unique : ∀ {h'}, (s.withNewZone k z h mem b junkIndex).Active z h' → h' = h :=
    fun other => Option.some.inj (other.1.symm.trans active.1)
  have others : ∀ {z' h'}, z' ≠ z → ((s.withNewZone k z h mem b junkIndex).Active z' h' ↔ s.Active z' h') := by
    intro z' h' other
    show Function.update s.zone z (some h) z' = some h' ∧ _ ↔ _
    rw [Function.update_of_ne other]
    rfl
  have shape : Shape k z h := by
    obtain ⟨kind, near, far, ok, -⟩ := new.zone
    exact ok.shape
  obtain ⟨i, inside, here⟩ := new.first
  have covered := Use.chunk_covered shape inside
  have unlisted : ∀ zi, z ∉ s.zoneAry zi := by
    intro zi member
    obtain ⟨h', active, -⟩ := use.ary zi z member
    exact nomatch noZone.symm.trans active.1
  have unsent : z ∉ s.messages := by
    intro member
    obtain ⟨h', active⟩ := use.messages z member
    exact nomatch noZone.symm.trans active.1
  have heldOutside : ∀ a, a < z ∨ z + k.zoneSize ≤ a → (Held (b :: s.live) a ↔ Held s.live a) := by
    intro a far
    constructor
    · rintro ⟨c, member, same⟩
      rcases List.mem_cons.mp member with rfl | old
      · have size := shape.size_pos
        rw [← here] at covered
        have len : c.len = h.chunkSize := by rw [here]
        unfold Block.Covers Block.stop at covered
        simp only at covered
        omega
      · exact ⟨c, old, same⟩
    · rintro ⟨c, old, same⟩
      exact ⟨c, List.mem_cons_of_mem _ old, same⟩
  have bigNe : ∀ {c}, s.IsBig c → c.ptr ≠ z := by
    intro c big same
    have count := big.count
    rw [same] at count
    exact vacant.kup count
  have kup : ∀ {c}, c ∈ s.kernelMap → c.ptr ≠ z →
      Function.update s.kup (z / pageSize) (-((k.cpuid : Int) + 1)) (c.ptr / pageSize) = s.kup (c.ptr / pageSize) :=
    fun member other => Function.update_of_ne (use.page_ne member vacant.mapped other) ..
  have bigs : ∀ {c}, s.IsBig c → (s.withNewZone k z h mem b junkIndex).IsBig c := by
    intro c big
    have other := bigNe big
    have same := kup big.mapped other
    constructor
    · show 0 < Function.update s.kup (z / pageSize) (-((k.cpuid : Int) + 1)) (c.ptr / pageSize)
      rw [same]
      exact big.count
    · exact big.aligned
    · show c.len = (Function.update s.kup (z / pageSize) (-((k.cpuid : Int) + 1)) (c.ptr / pageSize)).toNat * pageSize
      rw [same]
      exact big.length
    · exact big.mapped
    · exact (Function.update_of_ne other ..).trans big.noZone
  constructor
  · intro z' h' active'
    rcases eq_or_ne z' z with rfl | other
    · rw [unique active']
      exact new.zone
    · have old := (others other).mp active'
      obtain ⟨kind, near, far, ok, counted⟩ := use.zones z' h' old
      have apart := use.apart_of_ne vacant.mapped (use.place z' h' old.1).2 other.symm
      exact ⟨kind, near, far, ok.frame apart new.outside heldOutside, counted⟩
  · intro z' h' present
    rcases eq_or_ne z' z with rfl | other
    · exact ⟨aligned, vacant.mapped⟩
    · exact use.place z' h' ((Function.update_of_ne other ..).symm.trans present)
  · intro z' h' active'
    rcases eq_or_ne z' z with rfl | other
    · rw [unique active']
      show z' ∈ Function.update s.zoneAry h.zoneIndex (z' :: s.zoneAry h.zoneIndex) h.zoneIndex ↔ _
      rw [Function.update_self]
      exact ⟨fun _ => new.more, fun _ => List.mem_cons_self⟩
    · rw [← use.listed z' h' ((others other).mp active')]
      show z' ∈ Function.update s.zoneAry h.zoneIndex (z :: s.zoneAry h.zoneIndex) h'.zoneIndex ↔ _
      rcases eq_or_ne h'.zoneIndex h.zoneIndex with same | different
      · rw [same, Function.update_self, List.mem_cons]
        exact ⟨fun either => either.resolve_left other, .inr⟩
      · rw [Function.update_of_ne different]
  · intro zi
    show (Function.update s.zoneAry h.zoneIndex (z :: s.zoneAry h.zoneIndex) zi).Nodup
    rcases eq_or_ne zi h.zoneIndex with rfl | different
    · rw [Function.update_self, List.nodup_cons]
      exact ⟨unlisted _, use.aryNodup _⟩
    · rw [Function.update_of_ne different]
      exact use.aryNodup zi
  · show ∀ zi, ∀ z' ∈ Function.update s.zoneAry h.zoneIndex (z :: s.zoneAry h.zoneIndex) zi, _
    intro zi z' member
    have either : z' = z ∧ zi = h.zoneIndex ∨ z' ∈ s.zoneAry zi := by
      rcases eq_or_ne zi h.zoneIndex with rfl | different
      · rw [Function.update_self, List.mem_cons] at member
        exact member.imp_left fun same => ⟨same, rfl⟩
      · rw [Function.update_of_ne different] at member
        exact .inr member
    rcases either with ⟨rfl, rfl⟩ | old
    · exact ⟨h, active, rfl⟩
    · obtain ⟨h', active', same⟩ := use.ary zi z' old
      have other : z' ≠ z := by
        rintro rfl
        exact unlisted zi old
      exact ⟨h', (others other).mpr active', same⟩
  · exact use.freeNodup
  · intro z'
    show z' ∈ s.freeZones ↔ ∃ h', Function.update s.zone z (some h) z' = some h' ∧ _
    rw [use.free z']
    rcases eq_or_ne z' z with rfl | other
    · rw [Function.update_self, noZone]
      constructor
      · rintro ⟨h', present, -⟩
        cases present
      · rintro ⟨h', present, retired⟩
        obtain rfl := Option.some.inj present
        exact absurd new.magic retired
    · rw [Function.update_of_ne other]
  · exact use.freeCount
  · intro z' h' active'
    rcases eq_or_ne z' z with rfl | other
    · exact Function.update_self ..
    · have old := (others other).mp active'
      have same := kup (use.place z' h' old.1).2 other
      exact same.trans (use.kupZone z' h' old)
  · intro page
    show 0 < Function.update s.kup (z / pageSize) (-((k.cpuid : Int) + 1)) page → _
    intro count
    rcases eq_or_ne page (z / pageSize) with rfl | other
    · rw [Function.update_self] at count
      omega
    · rw [Function.update_of_ne other] at count
      obtain ⟨c, held, at', big⟩ := use.kupBig page count
      exact ⟨c, List.mem_cons_of_mem _ held, at', bigs big⟩
  · intro c member
    rcases List.mem_cons.mp member with rfl | old
    · exact .inl ⟨z, h, i, active, inside, here⟩
    · rcases use.live c old with ⟨z', h', j, active', below, rfl⟩ | big
      · have other : z' ≠ z := by
          rintro rfl
          exact nomatch noZone.symm.trans active'.1
        exact .inl ⟨z', h', j, (others other).mpr active', below, rfl⟩
      · exact .inr (bigs big)
  · exact use.ovNodup
  · intro o member
    obtain ⟨magic, noZone', count, len, same, bound, mapped⟩ := use.ov o member
    have other := vacant.ov o member
    refine ⟨magic, (Function.update_of_ne other ..).trans noZone', ?_, len, same, bound, mapped⟩
    show ¬0 < Function.update s.kup (z / pageSize) (-((k.cpuid : Int) + 1)) (o.addr / pageSize)
    rw [show Function.update s.kup (z / pageSize) (-((k.cpuid : Int) + 1)) (o.addr / pageSize) =
      s.kup (o.addr / pageSize) from kup mapped other]
    exact count
  · exact use.apart
  · exact use.mapped
  · exact use.pending
  · intro z' h' active'
    show h'.rCount = (s.messages.count z' : Nat)
    rcases eq_or_ne z' z with rfl | other
    · rw [unique active', new.rCount, List.count_eq_zero_of_not_mem unsent]
      rfl
    · exact use.rCount z' h' ((others other).mp active')
  · intro z' member
    obtain ⟨h', active'⟩ := use.messages z' member
    have other : z' ≠ z := by
      rintro rfl
      exact unsent member
    exact ⟨h', (others other).mpr active'⟩

/-- Laying out a zone on vacant memory and handing out its first chunk. -/
theorem Use.makeZone (use : Use k s) (vacant : Vacant s ⟨z, k.zoneSize⟩) (aligned : k.zoneSize ∣ z)
    (chunk : ChunkSize k zi size) (long : bytes ≤ size) (flags : Flags) {unotzerod : Bool}
    (zeroed : unotzerod = false → ∀ a, z ≤ a → a < z + k.zoneSize → s.mem a = 0) :
    ∃ p s', Slab.makeZone k zi size flags z unotzerod s = (.chunk p size, s') ∧ Use k s' ∧
      Returned k s s' bytes flags p size := by
  have mapped := use.mapped _ vacant.mapped
  have many := one_lt_nmax chunk
  have within : s.junkIndex % ((k.zoneSize - k.zoneOffset size) / size) < (k.zoneSize - k.zoneOffset size) / size :=
    Nat.mod_lt _ (by omega)
  have large := chunk.lower
  unfold Slab.makeZone
  extract_lets off nmax uIndex p h
  have shape : Shape k z h := by
    constructor
    · rfl
    · rfl
    · exact chunk
    · exact aligned
    · exact mapped.2.2.1
    · exact mapped.2.2.2
    · rfl
  have inside : h.uIndex < h.nmax := within
  have pOf : p = h.chunkAt h.uIndex := rfl
  have covered : ∀ {i}, i < h.nmax → z ≤ h.chunkAt i ∧ h.chunkAt i + size ≤ z + k.zoneSize :=
    fun below => Use.chunk_covered shape below
  obtain ⟨mem, finished, elsewhere, cleared, left⟩ := done_spec k (if unotzerod then flags else flags.passive) p
    chunk.lower
    { s with
      zoneAry := Function.update s.zoneAry zi (z :: s.zoneAry zi)
      junkIndex := (s.junkIndex + zallocSlabSlide) % zallocMaxZoneSize
      zone := Function.update s.zone z (some h)
      kup := Function.update s.kup (z / pageSize) (-((k.cpuid : Int) + 1)) }
  have away : ∀ c ∈ s.live, c.Apart ⟨z, k.zoneSize⟩ := fun c held => use.vacant_apart vacant held
  have apart : ∀ c ∈ s.live, c.Apart ⟨p, size⟩ := fun c held =>
    (away c held).mono ⟨Nat.le_refl _, Nat.le_refl _⟩ (covered inside)
  have only : ∀ i, i < h.nmax → (Held (⟨p, size⟩ :: s.live) (h.chunkAt i) ↔ i = h.uIndex) := by
    intro i below
    constructor
    · rintro ⟨c, member, same⟩
      rcases List.mem_cons.mp member with rfl | old
      · exact (shape.chunkAt_inj (pOf.symm.trans same)).symm
      · have apart := away c old
        have some := use.live_len old
        have here := covered below
        unfold Block.Apart Block.stop at apart
        simp only at apart
        omega
    · rintro rfl
      exact ⟨_, List.mem_cons_self, pOf⟩
  have first : ZoneOk k mem (Held (⟨p, size⟩ :: s.live)) z h (fun i => if i = h.uIndex then .busy else .fresh) [] [] := by
    apply ZoneOk.make shape inside rfl ⟨rfl, rfl, rfl⟩ rfl _ only
    intro clean i below other a lower upper
    have distinct := Shape.chunk_apart h other
    have here := covered below
    have upper : a < h.chunkAt i + size := upper
    have distinct : h.chunkAt i + size ≤ p ∨ p + size ≤ h.chunkAt i := distinct
    rw [elsewhere a (by omega)]
    exact zeroed clean a (by omega) (by omega)
  have new : NewZone k s z h mem ⟨p, size⟩ := by
    constructor
    · rfl
    · refine ⟨_, [], [], first, ?_⟩
      show (nmax : Int) - 1 = (0 + Slot.window h.nmax h.uIndex h.uIndex : Nat)
      rw [Slot.window_eq inside inside, Slot.rank_self inside]
      have same : h.nmax = nmax := rfl
      omega
    · intro a far
      have here := covered inside
      rw [← pOf] at here
      exact elsewhere a (by omega)
    · exact ⟨h.uIndex, inside, rfl⟩
    · show (((k.zoneSize - k.zoneOffset size) / size : Nat) : Int) - 1 ≠ 0
      omega
    · rfl
  refine ⟨p, _, finished, use.newZone vacant aligned new, ?_⟩
  constructor
  · rfl
  · exact apart
  · exact long
  · apply zero_of_flags _ cleared left
    cases clean : unotzerod with
    | true => exact .inl rfl
    | false =>
        have here := covered inside
        rw [← pOf] at here
        exact .inr ⟨rfl, fun a lower upper => zeroed clean a (by omega) (by omega)⟩
  · left
    refine ⟨z, h, ⟨Function.update_self .., rfl⟩, rfl, shape.chunkAt_lower h.uIndex,
      shape.chunkAt_upper inside, fun e power => ?_⟩
    exact shape.pow_dvd_chunkAt power h.uIndex

/-! ## Taking a zone off `FreeZones` -/

/-- The state after the first zone of `FreeZones` has been taken off. -/
def State.dropFree (s : State) (z : Nat) (rest : List Nat) : State :=
  { s with
    freeZones := rest
    nFreeZones := s.nFreeZones - 1
    zone := Function.update s.zone z none }

theorem Use.dropFree (use : Use k s) {rest : List Nat} (first : s.freeZones = z :: rest) :
    Use k (s.dropFree z rest) ∧ Vacant (s.dropFree z rest) ⟨z, k.zoneSize⟩ ∧ k.zoneSize ∣ z := by
  have listed : z ∈ s.freeZones := by
    rw [first]
    exact List.mem_cons_self
  obtain ⟨h, here, retired⟩ := (use.free z).mp listed
  have distinct := use.freeNodup
  rw [first, List.nodup_cons] at distinct
  obtain ⟨aligned, mapped⟩ := use.place z h here
  have active_ne : ∀ {z' h'}, s.Active z' h' → z' ≠ z := by
    rintro z' h' active rfl
    obtain rfl := Option.some.inj (active.1.symm.trans here)
    exact retired active.2
  have actives : ∀ {z' h'}, (s.dropFree z rest).Active z' h' ↔ s.Active z' h' := by
    intro z' h'
    constructor
    · rintro ⟨present, magic⟩
      have present : Function.update s.zone z none z' = some h' := present
      rcases eq_or_ne z' z with rfl | other
      · rw [Function.update_self] at present
        cases present
      · rw [Function.update_of_ne other] at present
        exact ⟨present, magic⟩
    · intro active
      exact ⟨(Function.update_of_ne (active_ne active) ..).trans active.1, active.2⟩
  have nones : ∀ {a}, s.zone a = none → (s.dropFree z rest).zone a = none := by
    intro a noZone
    show Function.update s.zone z none a = none
    rcases eq_or_ne a z with rfl | other
    · exact Function.update_self ..
    · rw [Function.update_of_ne other, noZone]
  have bigs : ∀ {c}, s.IsBig c → (s.dropFree z rest).IsBig c := fun big =>
    ⟨big.count, big.aligned, big.length, big.mapped, nones big.noZone⟩
  refine ⟨?_, ⟨mapped, Function.update_self .., use.kup_of_zone here, ?_⟩, aligned⟩
  · constructor
    · exact fun z' h' active => use.zones z' h' (actives.mp active)
    · intro z' h' present
      have present : Function.update s.zone z none z' = some h' := present
      rcases eq_or_ne z' z with rfl | other
      · rw [Function.update_self] at present
        cases present
      · rw [Function.update_of_ne other] at present
        exact use.place z' h' present
    · exact fun z' h' active => use.listed z' h' (actives.mp active)
    · exact use.aryNodup
    · intro zi z' member
      obtain ⟨h', active, same⟩ := use.ary zi z' member
      exact ⟨h', actives.mpr active, same⟩
    · exact distinct.2
    · intro z'
      show z' ∈ rest ↔ ∃ h', Function.update s.zone z none z' = some h' ∧ _
      have old := use.free z'
      rw [first, List.mem_cons] at old
      rcases eq_or_ne z' z with rfl | other
      · rw [Function.update_self]
        constructor
        · exact fun member => absurd member distinct.1
        · rintro ⟨h', present, -⟩
          cases present
      · rw [Function.update_of_ne other, ← old]
        exact ⟨.inr, fun either => either.resolve_left other⟩
    · have count := use.freeCount
      rw [first, List.length_cons] at count
      show s.nFreeZones - 1 = (rest.length : Int)
      omega
    · exact fun z' h' active => use.kupZone z' h' (actives.mp active)
    · intro page count
      obtain ⟨c, held, at', big⟩ := use.kupBig page count
      exact ⟨c, held, at', bigs big⟩
    · intro c held
      rcases use.live c held with ⟨z', h', i, active, rest⟩ | big
      · exact .inl ⟨z', h', i, actives.mpr active, rest⟩
      · exact .inr (bigs big)
    · exact use.ovNodup
    · intro o member
      obtain ⟨magic, noZone, others⟩ := use.ov o member
      exact ⟨magic, nones noZone, others⟩
    · exact use.apart
    · exact use.mapped
    · exact use.pending
    · exact fun z' h' active => use.rCount z' h' (actives.mp active)
    · intro z' member
      obtain ⟨h', active⟩ := use.messages z' member
      exact ⟨h', actives.mpr active⟩
  · rintro o member rfl
    have noZone := (use.ov o member).2.1
    rw [here] at noZone
    cases noZone

end Dragonfly.Kern.Slab
