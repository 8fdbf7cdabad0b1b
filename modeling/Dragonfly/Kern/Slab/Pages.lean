import Mathlib.Data.List.Basic
import Dragonfly.Kern.Slab.Make

/-!
# Memory from `kmem_slab_alloc` and back

A piece of the kernel map comes in vacant, becomes a zone or an oversized block,
becomes vacant again and goes back.
-/

namespace Dragonfly.Kern.Slab

open Lib

variable {k : Kernel} {s s' : State} {z z' p addr : Nat} {h h' : SLZone} {b c : Block} {flags : Flags}
  {size bytes : Nat} {zi : Int} {mem : Mem}

/-- What `kmem_slab_alloc` has just handed out is vacant. -/
theorem Use.grant (use : Use k s) (request : Request) {align : Nat} {zero : Bool}
    (granted : Granted k s addr size align zero mem) (some : 0 < size) (page : pageSize ∣ addr) :
    Use k { s with mem, kernelMap := ⟨addr, size⟩ :: s.kernelMap, pending := s.pending.erase request } ∧
      Vacant { s with mem, kernelMap := ⟨addr, size⟩ :: s.kernelMap, pending := s.pending.erase request }
        ⟨addr, size⟩ := by
  have elsewhere : ∀ {c}, c ∈ s.kernelMap → c.ptr ≠ addr := fun member =>
    (granted.unused _ member).ptr_ne (use.mapped _ member).1 some
  have bigs : ∀ {c}, s.IsBig c →
      State.IsBig { s with mem, kernelMap := ⟨addr, size⟩ :: s.kernelMap, pending := s.pending.erase request } c :=
    fun big => ⟨big.count, big.aligned, big.length, List.mem_cons_of_mem _ big.mapped, big.noZone⟩
  constructor
  · constructor
    · intro z h active
      obtain ⟨kind, near, far, ok, counted⟩ := use.zones z h active
      have apart := granted.unused _ (use.place z h active.1).2
      exact ⟨kind, near, far, ok.frame apart.symm granted.outside fun _ _ => Iff.rfl, counted⟩
    · intro z h here
      obtain ⟨aligned, mapped⟩ := use.place z h here
      exact ⟨aligned, List.mem_cons_of_mem _ mapped⟩
    · exact use.listed
    · exact use.aryNodup
    · exact use.ary
    · exact use.freeNodup
    · exact use.free
    · exact use.freeCount
    · exact use.kupZone
    · intro page count
      obtain ⟨c, held, at', big⟩ := use.kupBig page count
      exact ⟨c, held, at', bigs big⟩
    · exact fun c held => (use.live c held).imp_right bigs
    · exact use.ovNodup
    · intro o member
      obtain ⟨magic, noZone, count, len, same, bound, mapped⟩ := use.ov o member
      exact ⟨magic, noZone, count, len, same, bound, List.mem_cons_of_mem _ mapped⟩
    · rw [List.pairwise_cons]
      exact ⟨fun c member => (granted.unused c member).symm, use.apart⟩
    · intro c member
      rcases List.mem_cons.mp member with rfl | old
      · exact ⟨some, page, granted.lower, granted.upper⟩
      · exact use.mapped c old
    · exact fun other member => use.pending other (List.mem_of_mem_erase member)
    · exact use.rCount
    · exact use.messages
  · constructor
    · exact List.mem_cons_self
    · by_contra present
      obtain ⟨h, here⟩ := Option.ne_none_iff_exists'.mp present
      exact elsewhere (use.place addr h here).2 rfl
    · intro count
      obtain ⟨c, -, at', big⟩ := use.kupBig _ count
      rw [Nat.div_mul_cancel page] at at'
      exact elsewhere big.mapped at'
    · intro o member same
      obtain ⟨-, -, -, len, -, -, mapped⟩ := use.ov o member
      exact elsewhere mapped same

/-- A failed `kmem_slab_alloc` changes nothing. -/
theorem Use.erasePending (use : Use k s) (request : Request) :
    Use k { s with pending := s.pending.erase request } :=
  { use with pending := fun other member => use.pending other (List.mem_of_mem_erase member) }

/-- A vacant piece is handed out as an oversized block. -/
theorem Use.newBig (use : Use k s) (vacant : Vacant s b) (pages : pageSize ∣ b.len) :
    Use k { s with
      kup := Function.update s.kup (b.ptr / pageSize) (b.len / pageSize : Nat)
      live := b :: s.live } := by
  have count : 0 < b.len / pageSize := by
    have some := (use.mapped b vacant.mapped).1
    exact Nat.div_pos (Nat.le_of_dvd some pages) (by decide)
  have aligned := (use.mapped b vacant.mapped).2.1
  have bigNe : ∀ {c}, s.IsBig c → c.ptr ≠ b.ptr := by
    intro c big same
    have count := big.count
    rw [same] at count
    exact vacant.kup count
  have kup : ∀ {c}, c ∈ s.kernelMap → c.ptr ≠ b.ptr →
      Function.update s.kup (b.ptr / pageSize) (b.len / pageSize : Nat) (c.ptr / pageSize) =
        s.kup (c.ptr / pageSize) :=
    fun member other => Function.update_of_ne (use.page_ne member vacant.mapped other) ..
  have new : State.IsBig { s with
      kup := Function.update s.kup (b.ptr / pageSize) (b.len / pageSize : Nat), live := b :: s.live } b := by
    constructor
    · show 0 < Function.update s.kup (b.ptr / pageSize) (b.len / pageSize : Nat) (b.ptr / pageSize)
      rw [Function.update_self]
      omega
    · exact aligned
    · show b.len = (Function.update s.kup (b.ptr / pageSize) (b.len / pageSize : Nat) (b.ptr / pageSize)).toNat * _
      rw [Function.update_self, Int.toNat_natCast, Nat.div_mul_cancel pages]
    · exact vacant.mapped
    · exact vacant.noZone
  have bigs : ∀ {c}, s.IsBig c → State.IsBig { s with
      kup := Function.update s.kup (b.ptr / pageSize) (b.len / pageSize : Nat), live := b :: s.live } c := by
    intro c big
    have same := kup big.mapped (bigNe big)
    constructor
    · show 0 < Function.update s.kup (b.ptr / pageSize) (b.len / pageSize : Nat) (c.ptr / pageSize)
      rw [same]
      exact big.count
    · exact big.aligned
    · show c.len = (Function.update s.kup (b.ptr / pageSize) (b.len / pageSize : Nat) (c.ptr / pageSize)).toNat * _
      rw [same]
      exact big.length
    · exact big.mapped
    · exact big.noZone
  constructor
  · intro z h active
    obtain ⟨kind, near, far, ok, counted⟩ := use.zones z h active
    have other : b.ptr ≠ z := by
      intro same
      have none := vacant.noZone
      rw [same, active.1] at none
      cases none
    have apart := use.apart_of_ne vacant.mapped (use.place z h active.1).2 other
    refine ⟨kind, near, far, ok.frame apart (fun _ _ => rfl) fun a away => ?_, counted⟩
    have some := (use.mapped b vacant.mapped).1
    constructor
    · rintro ⟨c, member, same⟩
      rcases List.mem_cons.mp member with rfl | old
      · unfold Block.stop at away
        omega
      · exact ⟨c, old, same⟩
    · rintro ⟨c, old, same⟩
      exact ⟨c, List.mem_cons_of_mem _ old, same⟩
  · exact use.place
  · exact use.listed
  · exact use.aryNodup
  · exact use.ary
  · exact use.freeNodup
  · exact use.free
  · exact use.freeCount
  · intro z h active
    have other : z ≠ b.ptr := by
      rintro rfl
      exact nomatch vacant.noZone.symm.trans active.1
    exact (kup (use.place z h active.1).2 other).trans (use.kupZone z h active)
  · intro page
    show 0 < Function.update s.kup (b.ptr / pageSize) (b.len / pageSize : Nat) page → _
    intro count
    rcases eq_or_ne page (b.ptr / pageSize) with rfl | other
    · exact ⟨b, List.mem_cons_self, (Nat.div_mul_cancel aligned).symm, new⟩
    · rw [Function.update_of_ne other] at count
      obtain ⟨c, held, at', big⟩ := use.kupBig page count
      exact ⟨c, List.mem_cons_of_mem _ held, at', bigs big⟩
  · intro c member
    rcases List.mem_cons.mp member with rfl | old
    · exact .inr new
    · exact (use.live c old).imp_right bigs
  · exact use.ovNodup
  · intro o member
    obtain ⟨magic, noZone, count, len, same, bound, mapped⟩ := use.ov o member
    refine ⟨magic, noZone, ?_, len, same, bound, mapped⟩
    show ¬0 < Function.update s.kup (b.ptr / pageSize) (b.len / pageSize : Nat) (o.addr / pageSize)
    rw [show Function.update s.kup (b.ptr / pageSize) (b.len / pageSize : Nat) (o.addr / pageSize) =
      s.kup (o.addr / pageSize) from kup mapped (vacant.ov o member)]
    exact count
  · exact use.apart
  · exact use.mapped
  · exact use.pending
  · exact use.rCount
  · exact use.messages

/-- An oversized block is taken back: its page count is cleared and it may be written to. -/
theorem Use.dropBig (use : Use k s) (big : s.IsBig b)
    (outside : ∀ a, a < b.ptr ∨ b.stop ≤ a → mem a = s.mem a) :
    Use k { s with
      kup := Function.update s.kup (b.ptr / pageSize) 0
      mem
      live := s.live.filter (·.ptr ≠ b.ptr) } ∧
    Vacant { s with
      kup := Function.update s.kup (b.ptr / pageSize) 0
      mem
      live := s.live.filter (·.ptr ≠ b.ptr) } b := by
  have kup : ∀ {c}, c ∈ s.kernelMap → c.ptr ≠ b.ptr →
      Function.update s.kup (b.ptr / pageSize) 0 (c.ptr / pageSize) = s.kup (c.ptr / pageSize) :=
    fun member other => Function.update_of_ne (use.page_ne member big.mapped other) ..
  have ovNe : ∀ o ∈ s.freeOvZones, o.addr ≠ b.ptr := by
    intro o member same
    have count := (use.ov o member).2.2.1
    rw [same] at count
    exact count big.count
  have bigs : ∀ {c}, s.IsBig c → c.ptr ≠ b.ptr → State.IsBig { s with
      kup := Function.update s.kup (b.ptr / pageSize) 0, mem, live := s.live.filter (·.ptr ≠ b.ptr) } c := by
    intro c other different
    have same := kup other.mapped different
    constructor
    · show 0 < Function.update s.kup (b.ptr / pageSize) 0 (c.ptr / pageSize)
      rw [same]
      exact other.count
    · exact other.aligned
    · show c.len = (Function.update s.kup (b.ptr / pageSize) 0 (c.ptr / pageSize)).toNat * _
      rw [same]
      exact other.length
    · exact other.mapped
    · exact other.noZone
  have kept : ∀ {c}, c ∈ s.live.filter (·.ptr ≠ b.ptr) ↔ c ∈ s.live ∧ c.ptr ≠ b.ptr := by simp
  constructor
  · constructor
    · intro z h active
      obtain ⟨kind, near, far, ok, counted⟩ := use.zones z h active
      have other : b.ptr ≠ z := by
        intro same
        have none := big.noZone
        rw [same, active.1] at none
        cases none
      have apart := use.apart_of_ne big.mapped (use.place z h active.1).2 other
      refine ⟨kind, near, far, ok.frame apart outside fun a away => ?_, counted⟩
      have some := (use.mapped b big.mapped).1
      constructor
      · rintro ⟨c, member, same⟩
        exact ⟨c, (kept.mp member).1, same⟩
      · rintro ⟨c, member, same⟩
        refine ⟨c, kept.mpr ⟨member, fun here => ?_⟩, same⟩
        unfold Block.stop at away
        omega
    · exact use.place
    · exact use.listed
    · exact use.aryNodup
    · exact use.ary
    · exact use.freeNodup
    · exact use.free
    · exact use.freeCount
    · intro z h active
      have other : z ≠ b.ptr := by
        rintro rfl
        exact nomatch big.noZone.symm.trans active.1
      exact (kup (use.place z h active.1).2 other).trans (use.kupZone z h active)
    · intro page
      show 0 < Function.update s.kup (b.ptr / pageSize) 0 page → _
      intro count
      rcases eq_or_ne page (b.ptr / pageSize) with rfl | other
      · rw [Function.update_self] at count
        exact absurd count (Int.lt_irrefl 0)
      · rw [Function.update_of_ne other] at count
        obtain ⟨c, held, at', other'⟩ := use.kupBig page count
        have different : c.ptr ≠ b.ptr := by
          intro same
          apply other
          rw [← same, at', Nat.mul_div_cancel _ (by decide)]
        exact ⟨c, kept.mpr ⟨held, different⟩, at', bigs other' different⟩
    · intro c member
      obtain ⟨held, different⟩ := kept.mp member
      rcases use.live c held with chunk | other
      · exact .inl chunk
      · exact .inr (bigs other different)
    · exact use.ovNodup
    · intro o member
      obtain ⟨magic, noZone, count, len, same, bound, mapped⟩ := use.ov o member
      refine ⟨magic, noZone, ?_, len, same, bound, mapped⟩
      show ¬0 < Function.update s.kup (b.ptr / pageSize) 0 (o.addr / pageSize)
      rw [show Function.update s.kup (b.ptr / pageSize) 0 (o.addr / pageSize) = s.kup (o.addr / pageSize) from
        kup mapped (ovNe o member)]
      exact count
    · exact use.apart
    · exact use.mapped
    · exact use.pending
    · exact use.rCount
    · exact use.messages
  · constructor
    · exact big.mapped
    · exact big.noZone
    · show ¬0 < Function.update s.kup (b.ptr / pageSize) 0 (b.ptr / pageSize)
      rw [Function.update_self]
      exact Int.lt_irrefl 0
    · exact ovNe

/-- A vacant piece goes to `FreeOvZones`. -/
theorem Use.addOv (use : Use k s) (vacant : Vacant s b) (small : b.len < 2 ^ 31) :
    Use k { s with freeOvZones := ⟨b.ptr, zallocOvszMagic, (b.len : Nat)⟩ :: s.freeOvZones } :=
  { use with
    ovNodup := by
      rw [List.map_cons, List.nodup_cons]
      refine ⟨fun member => ?_, use.ovNodup⟩
      obtain ⟨o, old, same⟩ := List.mem_map.mp member
      exact vacant.ov o old same
    ov := by
      intro o member
      rcases List.mem_cons.mp member with rfl | old
      · exact ⟨rfl, vacant.noZone, vacant.kup, b.len, rfl, small, vacant.mapped⟩
      · exact use.ov o old }

/-- A block taken off `FreeOvZones` is vacant. -/
theorem Use.dropOv (use : Use k s) {o : OvZone} {rest : List OvZone} (first : s.freeOvZones = o :: rest) :
    o.magic = zallocOvszMagic ∧ Use k { s with freeOvZones := rest } ∧
      Vacant { s with freeOvZones := rest } ⟨o.addr, (o.chunkSize % 2 ^ 64).toNat⟩ := by
  have listed : o ∈ s.freeOvZones := by
    rw [first]
    exact List.mem_cons_self
  have distinct := use.ovNodup
  rw [first, List.map_cons, List.nodup_cons] at distinct
  obtain ⟨magic, noZone, count, len, same, bound, mapped⟩ := use.ov o listed
  have length : (o.chunkSize % 2 ^ 64).toNat = len := by
    rw [same]
    omega
  refine ⟨magic, ?_, ?_⟩
  · exact { use with
      ovNodup := distinct.2
      ov := fun other member => use.ov other (by
        rw [first]
        exact List.mem_cons_of_mem _ member) }
  · rw [length]
    constructor
    · exact mapped
    · exact noZone
    · exact count
    · intro other member same
      exact distinct.1 (List.mem_map.mpr ⟨other, member, same⟩)

/-- The kernel map changes at a vacant piece only. -/
theorem Use.remap (use : Use k s) (vacant : Vacant s b) {kup : Nat → Int} {kernelMap : List Block}
    (others : ∀ page, page ≠ b.ptr / pageSize → kup page = s.kup page) (here : ¬0 < kup (b.ptr / pageSize))
    (kept : ∀ c ∈ s.kernelMap, c.ptr ≠ b.ptr → c ∈ kernelMap) (apart : kernelMap.Pairwise Block.Apart)
    (mapped : ∀ c ∈ kernelMap, 0 < c.len ∧ pageSize ∣ c.ptr ∧ k.kvaStart ≤ c.ptr ∧ c.stop ≤ k.kvaEnd) :
    Use k { s with kup, kernelMap } := by
  have kups : ∀ {c}, c ∈ s.kernelMap → c.ptr ≠ b.ptr → kup (c.ptr / pageSize) = s.kup (c.ptr / pageSize) :=
    fun member other => others _ (use.page_ne member vacant.mapped other)
  have bigNe : ∀ {c}, s.IsBig c → c.ptr ≠ b.ptr := by
    intro c big same
    have count := big.count
    rw [same] at count
    exact vacant.kup count
  have zoneNe : ∀ {z h}, s.zone z = some h → z ≠ b.ptr := by
    rintro z h present rfl
    exact nomatch vacant.noZone.symm.trans present
  have bigs : ∀ {c}, s.IsBig c → State.IsBig { s with kup, kernelMap } c := by
    intro c big
    have same := kups big.mapped (bigNe big)
    constructor
    · show 0 < kup (c.ptr / pageSize)
      rw [same]
      exact big.count
    · exact big.aligned
    · show c.len = (kup (c.ptr / pageSize)).toNat * pageSize
      rw [same]
      exact big.length
    · exact kept c big.mapped (bigNe big)
    · exact big.noZone
  constructor
  · exact use.zones
  · intro z h present
    obtain ⟨aligned, mapped⟩ := use.place z h present
    exact ⟨aligned, kept _ mapped (zoneNe present)⟩
  · exact use.listed
  · exact use.aryNodup
  · exact use.ary
  · exact use.freeNodup
  · exact use.free
  · exact use.freeCount
  · intro z h active
    exact (kups (use.place z h active.1).2 (zoneNe active.1)).trans (use.kupZone z h active)
  · intro page count
    have other : page ≠ b.ptr / pageSize := by
      rintro rfl
      exact here count
    have count : 0 < kup page := count
    rw [others page other] at count
    obtain ⟨c, held, at', big⟩ := use.kupBig page count
    exact ⟨c, held, at', bigs big⟩
  · exact fun c held => (use.live c held).imp_right bigs
  · exact use.ovNodup
  · intro o member
    obtain ⟨magic, noZone, count, len, same, bound, mapped⟩ := use.ov o member
    have other := vacant.ov o member
    refine ⟨magic, noZone, ?_, len, same, bound, kept _ mapped other⟩
    show ¬0 < kup (o.addr / pageSize)
    rw [show kup (o.addr / pageSize) = s.kup (o.addr / pageSize) from kups mapped other]
    exact count
  · exact apart
  · exact mapped
  · exact use.pending
  · exact use.rCount
  · exact use.messages

/-- A vacant piece goes back to the kernel. -/
theorem Use.forget (use : Use k s) (vacant : Vacant s b) {kup : Nat → Int}
    (others : ∀ page, page ≠ b.ptr / pageSize → kup page = s.kup page) (here : ¬0 < kup (b.ptr / pageSize)) :
    Use k { s with kup, kernelMap := s.kernelMap.erase b } := by
  refine use.remap vacant others here ?_ (use.apart.sublist List.erase_sublist) fun c member => use.mapped c (List.mem_of_mem_erase member)
  intro c member other
  have different : c ≠ b := fun same => other (congrArg Block.ptr same)
  exact (List.mem_erase_of_ne different).mpr member

/-- What is left of a piece when its first bytes are unmapped is in it. -/
theorem Block.mem_rest {ptr size : Nat} {c home : Block} (member : c ∈ home.rest ptr size) :
    home.Covers c ∧ (c = home ∨ home.ptr = ptr ∧ size < home.len ∧ c = ⟨ptr + size, home.len - size⟩) := by
  rw [Block.rest] at member
  split at member
  · rename_i start
    split at member
    · rename_i more
      obtain rfl := List.mem_singleton.mp member
      refine ⟨⟨?_, ?_⟩, .inr ⟨start, more, rfl⟩⟩
      · show home.ptr ≤ ptr + size
        omega
      · show ptr + size + (home.len - size) ≤ home.ptr + home.len
        omega
    · cases member
  · obtain rfl := List.mem_singleton.mp member
    exact ⟨⟨Nat.le_refl _, Nat.le_refl _⟩, .inl rfl⟩

/-- The first bytes of a vacant piece go back to the kernel. -/
theorem Use.unmap (use : Use k s) (vacant : Vacant s b) {size : Nat} (pages : pageSize ∣ size) :
    Use k { s with kernelMap := kmemSlabFree b.ptr size s.kernelMap } := by
  rw [kmemSlabFree]
  split
  · exact use
  · refine @Use.remap k s _ use vacant s.kup _ (fun _ _ => rfl) vacant.kup ?_ ?_ ?_
    · intro c member other
      refine List.mem_flatMap.mpr ⟨c, member, ?_⟩
      rw [Block.rest, if_neg other]
      exact List.mem_singleton_self c
    · refine List.pairwise_flatMap.mpr ⟨?_, use.apart.imp fun apart x first y second =>
        apart.mono (Block.mem_rest first).1 (Block.mem_rest second).1⟩
      intro c _
      rw [Block.rest]
      split
      · split
        · exact List.pairwise_singleton _ _
        · exact List.Pairwise.nil
      · exact List.pairwise_singleton _ _
    · intro c member
      obtain ⟨home, old, left⟩ := List.mem_flatMap.mp member
      obtain ⟨⟨first, last⟩, either⟩ := Block.mem_rest left
      obtain ⟨positive, aligned, lower, upper⟩ := use.mapped home old
      refine ⟨?_, ?_, lower.trans first, last.trans upper⟩
      · obtain rfl | ⟨-, more, rfl⟩ := either
        · exact positive
        · exact Nat.sub_pos_of_lt more
      · obtain rfl | ⟨start, -, rfl⟩ := either
        · exact aligned
        · exact Nat.dvd_add (start ▸ aligned) pages

end Dragonfly.Kern.Slab
