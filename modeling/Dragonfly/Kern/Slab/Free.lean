import Mathlib.Data.List.Basic
import Dragonfly.Kern.Slab.Pages

/-!
# Chunks come back and zones retire

`kfree` on the owning cpu and on another one, the message handler `kfree_remote`,
and the move of a free zone to `FreeZones`.
-/

namespace Dragonfly.Kern.Slab

open Lib

variable {k : Kernel} {s s' : State} {z z' p i : Nat} {h h' : SLZone} {b c : Block} {mem : Mem}

/-! ## Retiring a zone -/

/-- The state after a zone has moved to `FreeZones`. -/
def State.retired (s : State) (z : Nat) (h : SLZone) : State :=
  { s with
    zoneAry := Function.update s.zoneAry h.zoneIndex ((s.zoneAry h.zoneIndex).erase z)
    zone := Function.update s.zone z (some { h with magic := -1 })
    freeZones := z :: s.freeZones
    nFreeZones := s.nFreeZones + 1
    kup := Function.update s.kup (z / pageSize) 0 }

/-- No chunk of a zone is live when all of them are counted. -/
theorem Use.idle (use : Use k s) (active : s.Active z h) (free : h.nfree = h.nmax) :
    ∀ i, i < h.nmax → ¬Held s.live (h.chunkAt i) := by
  intro i inside held
  obtain ⟨kind, near, far, ok, counted⟩ := use.zones z h active
  have fewer := ok.slots.free_lt inside (.inl ((ok.held_iff i inside).mpr held))
  unfold Counted at counted
  omega

theorem Use.retired (use : Use k s) (active : s.Active z h) (free : h.nfree = h.nmax) (quiet : h.rCount = 0) :
    Use k (s.retired z h) := by
  have idle := use.idle active free
  have unsent : z ∉ s.messages := by
    have count := use.rCount z h active
    rw [quiet] at count
    intro member
    have some := List.count_pos_iff.mpr member
    omega
  have magic : (-1 : Int) ≠ zallocSlabMagic := by decide
  have here : (s.retired z h).zone z = some { h with magic := -1 } := Function.update_self ..
  have active_ne : ∀ {z' h'}, (s.retired z h).Active z' h' → z' ≠ z := by
    rintro z' h' active' rfl
    have same := Option.some.inj (active'.1.symm.trans here)
    rw [same] at active'
    exact magic active'.2
  have actives : ∀ {z' h'}, z' ≠ z → ((s.retired z h).Active z' h' ↔ s.Active z' h') := by
    intro z' h' other
    show Function.update s.zone z (some { h with magic := -1 }) z' = some h' ∧ _ ↔ _
    rw [Function.update_of_ne other]
    rfl
  have old : ∀ {z' h'}, (s.retired z h).Active z' h' → s.Active z' h' :=
    fun active' => (actives (active_ne active')).mp active'
  have bigNe : ∀ {c}, s.IsBig c → c.ptr ≠ z := by
    intro c big same
    have none := big.noZone
    rw [same, active.1] at none
    cases none
  have kup : ∀ {c}, c ∈ s.kernelMap → c.ptr ≠ z →
      Function.update s.kup (z / pageSize) 0 (c.ptr / pageSize) = s.kup (c.ptr / pageSize) :=
    fun member other => Function.update_of_ne (use.page_ne member (use.place z h active.1).2 other) ..
  have bigs : ∀ {c}, s.IsBig c → (s.retired z h).IsBig c := by
    intro c big
    have other := bigNe big
    have same := kup big.mapped other
    constructor
    · show 0 < Function.update s.kup (z / pageSize) 0 (c.ptr / pageSize)
      rw [same]
      exact big.count
    · exact big.aligned
    · show c.len = (Function.update s.kup (z / pageSize) 0 (c.ptr / pageSize)).toNat * pageSize
      rw [same]
      exact big.length
    · exact big.mapped
    · exact (Function.update_of_ne other ..).trans big.noZone
  have lists : ∀ {zi z'}, z' ∈ (s.retired z h).zoneAry zi ↔ z' ∈ s.zoneAry zi ∧ z' ≠ z := by
    intro zi z'
    show z' ∈ Function.update s.zoneAry h.zoneIndex ((s.zoneAry h.zoneIndex).erase z) zi ↔ _
    rcases eq_or_ne zi h.zoneIndex with rfl | different
    · rw [Function.update_self, (use.aryNodup _).mem_erase_iff]
      exact and_comm
    · rw [Function.update_of_ne different]
      constructor
      · refine fun member => ⟨member, ?_⟩
        rintro rfl
        exact different (use.mem_ary active member)
      · exact fun both => both.1
  constructor
  · exact fun z' h' active' => use.zones z' h' (old active')
  · intro z' h' present
    rcases eq_or_ne z' z with rfl | other
    · exact use.place z' h active.1
    · exact use.place z' h' ((Function.update_of_ne other ..).symm.trans present)
  · intro z' h' active'
    rw [lists, use.listed z' h' (old active')]
    exact ⟨fun both => both.1, fun some => ⟨some, active_ne active'⟩⟩
  · intro zi
    show (Function.update s.zoneAry h.zoneIndex ((s.zoneAry h.zoneIndex).erase z) zi).Nodup
    rcases eq_or_ne zi h.zoneIndex with rfl | different
    · rw [Function.update_self]
      exact (use.aryNodup _).erase z
    · rw [Function.update_of_ne different]
      exact use.aryNodup zi
  · intro zi z' member
    obtain ⟨member, other⟩ := lists.mp member
    obtain ⟨h', active', same⟩ := use.ary zi z' member
    exact ⟨h', (actives other).mpr active', same⟩
  · show (z :: s.freeZones).Nodup
    rw [List.nodup_cons]
    refine ⟨fun member => ?_, use.freeNodup⟩
    obtain ⟨h', present, retired⟩ := (use.free z).mp member
    obtain rfl := Option.some.inj (active.1.symm.trans present)
    exact retired active.2
  · intro z'
    show z' ∈ z :: s.freeZones ↔ ∃ h', Function.update s.zone z (some { h with magic := -1 }) z' = some h' ∧ _
    rw [List.mem_cons, use.free z']
    rcases eq_or_ne z' z with rfl | other
    · rw [Function.update_self]
      exact ⟨fun _ => ⟨_, rfl, magic⟩, fun _ => .inl rfl⟩
    · rw [Function.update_of_ne other]
      exact ⟨fun either => either.resolve_left other, .inr⟩
  · have count := use.freeCount
    show s.nFreeZones + 1 = ((z :: s.freeZones).length : Nat)
    rw [List.length_cons]
    omega
  · intro z' h' active'
    have before := old active'
    exact (kup (use.place z' h' before.1).2 (active_ne active')).trans (use.kupZone z' h' before)
  · intro page
    show 0 < Function.update s.kup (z / pageSize) 0 page → _
    intro count
    rcases eq_or_ne page (z / pageSize) with rfl | other
    · rw [Function.update_self] at count
      exact absurd count (Int.lt_irrefl 0)
    · rw [Function.update_of_ne other] at count
      obtain ⟨c, held, at', big⟩ := use.kupBig page count
      exact ⟨c, held, at', bigs big⟩
  · intro c held
    rcases use.live c held with ⟨z', h', j, active', below, rfl⟩ | big
    · have other : z' ≠ z := by
        rintro rfl
        obtain rfl := Option.some.inj (active'.1.symm.trans active.1)
        exact idle j below ⟨_, held, rfl⟩
      exact .inl ⟨z', h', j, (actives other).mpr active', below, rfl⟩
    · exact .inr (bigs big)
  · exact use.ovNodup
  · intro o member
    obtain ⟨magic, noZone, count, len, same, bound, mapped⟩ := use.ov o member
    have other : o.addr ≠ z := by
      intro same
      rw [same, active.1] at noZone
      cases noZone
    refine ⟨magic, (Function.update_of_ne other ..).trans noZone, ?_, len, same, bound, mapped⟩
    show ¬0 < Function.update s.kup (z / pageSize) 0 (o.addr / pageSize)
    rw [show Function.update s.kup (z / pageSize) 0 (o.addr / pageSize) = s.kup (o.addr / pageSize) from
      kup mapped other]
    exact count
  · exact use.apart
  · exact use.mapped
  · exact use.pending
  · exact fun z' h' active' => use.rCount z' h' (old active')
  · intro z' member
    obtain ⟨h', active'⟩ := use.messages z' member
    have other : z' ≠ z := by
      rintro rfl
      exact unsent member
    exact ⟨h', (actives other).mpr active'⟩

/-- The end of `kfree` and `kfree_remote`: the new header is stored and the zone retires when it may. -/
theorem Use.retire {mem : Mem} {live : List Block} {zoneAry : Int → List Nat} {messages : List Nat}
    (use : Use k (s.withZone z h mem live zoneAry messages)) (slab : h.magic = zallocSlabMagic) :
    ∃ s', Slab.retire z h { s with mem, live, zoneAry, messages } = .ok s' ∧ Use k s' := by
  have active : (s.withZone z h mem live zoneAry messages).Active z h := State.withZone_active_self s h slab
  unfold Slab.retire
  extract_lets zones
  by_cases free : h.nfree = h.nmax ∧ ((zNext z zones).isSome ∨ zones.head? ≠ some z) ∧ h.rCount = 0
  · rw [if_pos free]
    have listed : z ∈ zones := by
      have some : h.nfree ≠ 0 := by
        have room := one_lt_nmax (use.shape active).size
        have nmax := (use.shape active).nmax
        omega
      exact (use.listed z h active).mpr some
    rw [if_pos listed]
    refine ⟨_, rfl, ?_⟩
    have moved := use.retired active free.1 free.2.2
    unfold State.retired State.withZone at moved
    simp only [Function.update_idem] at moved
    exact moved
  · rw [if_neg free]
    exact ⟨_, rfl, use⟩

/-! ## One chunk -/

/-- A zone that gets its first free chunk goes to the head of its list. -/
theorem Use.relist (use : Use k s) (active : s.Active z h) {nfree : Int} {zoneAry : Int → List Nat}
    (grows : h.nfree ≠ 0 → nfree ≠ 0)
    (lists : zoneAry = if nfree ≠ 0 ∧ h.nfree = 0 then
      Function.update s.zoneAry h.zoneIndex (z :: s.zoneAry h.zoneIndex) else s.zoneAry) :
    (∀ zi, (zoneAry zi).Nodup) ∧ (∀ zi z', z' ≠ z → (z' ∈ zoneAry zi ↔ z' ∈ s.zoneAry zi)) ∧
      ∀ zi, z ∈ zoneAry zi ↔ zi = h.zoneIndex ∧ nfree ≠ 0 := by
  have listed := use.listed z h active
  subst lists
  by_cases first : nfree ≠ 0 ∧ h.nfree = 0
  · rw [if_pos first]
    have missing : z ∉ s.zoneAry h.zoneIndex := fun member => listed.mp member first.2
    refine ⟨fun zi => ?_, fun zi z' other => ?_, fun zi => ?_⟩
    · rcases eq_or_ne zi h.zoneIndex with rfl | different
      · rw [Function.update_self, List.nodup_cons]
        exact ⟨missing, use.aryNodup _⟩
      · rw [Function.update_of_ne different]
        exact use.aryNodup zi
    · rcases eq_or_ne zi h.zoneIndex with rfl | different
      · rw [Function.update_self, List.mem_cons]
        exact ⟨fun either => either.resolve_left other, .inr⟩
      · rw [Function.update_of_ne different]
    · rcases eq_or_ne zi h.zoneIndex with rfl | different
      · rw [Function.update_self]
        exact ⟨fun _ => ⟨rfl, first.1⟩, fun _ => List.mem_cons_self⟩
      · rw [Function.update_of_ne different]
        constructor
        · exact fun member => absurd (use.mem_ary active member) different
        · exact fun both => absurd both.1 different
  · rw [if_neg first]
    refine ⟨use.aryNodup, fun _ _ _ => Iff.rfl, fun zi => ?_⟩
    constructor
    · intro member
      have same := use.mem_ary active member
      rw [same] at member
      exact ⟨same, grows (listed.mp member)⟩
    · rintro ⟨rfl, some⟩
      exact listed.mpr fun zero => first ⟨some, zero⟩

/-- The live blocks without one chunk. -/
theorem held_filter {p a : Nat} : Held (s.live.filter (·.ptr ≠ p)) a ↔ a ≠ p ∧ Held s.live a := by
  constructor
  · rintro ⟨c, member, rfl⟩
    obtain ⟨old, other⟩ := List.mem_filter.mp member
    exact ⟨by simpa using other, c, old, rfl⟩
  · rintro ⟨other, c, old, rfl⟩
    exact ⟨c, List.mem_filter.mpr ⟨old, by simpa using other⟩, rfl⟩

/-- Freeing a chunk changes its zone only. -/
theorem Use.lost (use : Use k s) (active : s.Active z h) (inside : i < h.nmax) :
    ∀ c ∈ s.live, c ∈ s.live.filter (·.ptr ≠ h.chunkAt i) ∨ ∃ j, j < h.nmax ∧ c = ⟨h.chunkAt j, h.chunkSize⟩ := by
  intro c held
  by_cases here : c.ptr = h.chunkAt i
  · right
    have shape := use.shape active
    have covered := Use.chunk_covered shape inside
    have size := shape.size_pos
    unfold Block.Covers Block.stop at covered
    simp only at covered
    exact use.chunk_of_inside active held (by omega) (use.live_len held)
  · exact .inl (List.mem_filter.mpr ⟨held, by simpa using here⟩)

theorem chunk_outside {mem mem' : Mem} (shape : Shape k z h) (inside : i < h.nmax)
    (same : ∀ a, a < h.chunkAt i ∨ h.chunkAt i + h.chunkSize ≤ a → mem' a = mem a) :
    ∀ a, a < z ∨ z + k.zoneSize ≤ a → mem' a = mem a := by
  intro a away
  have covered := Use.chunk_covered shape inside
  unfold Block.Covers Block.stop at covered
  simp only at covered
  exact same a (by omega)

/-- A list of chunks begins at an address of the kernel. -/
theorem ZoneOk.head_lower {held : Nat → Prop} {kind : Nat → Slot} {near far : List Nat}
    (ok : ZoneOk k mem held z h kind near far) (some : h.lChunks ≠ 0) : k.kvaStart ≤ h.lChunks := by
  obtain ⟨rest, listed, -⟩ := ok.lChunks.uncons some
  have member : h.lChunks ∈ near.map h.chunkAt := by
    rw [listed]
    exact List.mem_cons_self
  obtain ⟨j, -, same⟩ := List.mem_map.mp member
  have above := ok.shape.chunkAt_lower j
  have lower := ok.shape.lower
  omega

theorem Use.kfreeLocal (use : Use k s) (active : s.Active z h) (inside : i < h.nmax)
    (held : Held s.live (h.chunkAt i)) :
    ∃ s', Slab.kfreeLocal k z h (h.chunkAt i) s = .ok s' ∧ Use k s' := by
  obtain ⟨kind, near, far, ok, counted⟩ := use.zones z h active
  have counted : h.nfree = (near.length + Slot.window h.nmax h.uEndIndex h.uIndex : Nat) := counted
  have busy := (ok.held_iff i inside).mpr held
  have shape := ok.shape
  have size := shape.size_pos
  have small := ZoneOk.head_lt shape ok.lChunks fun j member => ((ok.slots.mem_near j).mp member).1
  obtain ⟨bitmap, marked, cleared⟩ := shape.markFree_spec inside fun invariants =>
    (ok.bits invariants i inside).mpr (.inl busy)
  unfold Slab.kfreeLocal
  simp -zeta only [marked]
  extract_lets mem₁ mem₂ h₁ s₁
  have lower : k.kvaStart ≤ h.chunkAt i := by
    have above := shape.chunkAt_lower i
    have base := shape.lower
    omega
  have upper : h.chunkAt i < k.kvaEnd := by
    have below := shape.chunkAt_upper inside
    have base := shape.upper
    omega
  have weird : ∀ a, a < h.chunkAt i ∨ h.chunkAt i + h.chunkSize ≤ a → mem₁ a = s.mem a := by
    intro a away
    show (if k.invariants then s.mem.blit (h.chunkAt i) (weirdary.take (min h.chunkSize maxCopy)) else s.mem) a = _
    split
    · apply Mem.blit_outside
      rw [List.length_take]
      omega
    · rfl
  have ok₁ : ZoneOk k mem₁ (Held s.live) z h kind near far := by
    apply ok.write
    intro j below other a lower upper
    have different : j ≠ i := fun same => other (same ▸ busy)
    have apart := Shape.chunk_apart h different
    exact weird a (by omega)
  have given := ok₁.give inside busy cleared
  have linked : cNext mem₂ (h.chunkAt i) = h.lChunks := (ok₁.linked i h.lChunks).2.1 small
  rw [if_neg (by omega), if_neg (by
    rintro ⟨-, some, below⟩
    rw [linked] at some below
    exact absurd below (Nat.not_lt.mpr (ok.head_lower some)))]
  -- Both branches store this header; they differ in the list.
  have final : ∀ zoneAry : Int → List Nat,
      (zoneAry = if h.nfree + 1 ≠ 0 ∧ h.nfree = 0 then
        Function.update s.zoneAry h.zoneIndex (z :: s.zoneAry h.zoneIndex) else s.zoneAry) →
      ∃ s', Slab.retire z { h₁ with nfree := h.nfree + 1 }
        { s with mem := mem₂, live := s.live.filter (·.ptr ≠ h.chunkAt i), zoneAry, messages := s.messages } = .ok s' ∧
        Use k s' := by
    intro zoneAry lists
    obtain ⟨nodup, others, own⟩ := use.relist active (fun _ => by omega) lists
    have slab : ({ h₁ with nfree := h.nfree + 1 } : SLZone).magic = zallocSlabMagic := active.2
    refine Use.retire (use.zoneStep active ?_) slab
    refine ⟨rfl, rfl, ⟨_, i :: near, far,
      (given.header (h.nfree + 1) h.rSignal h.rCount).held_congr fun j _ => held_filter, ?_⟩, ?_,
      fun c member => .inl (List.mem_of_mem_filter member), use.lost active inside, nodup, others, own,
      use.rCount z h active, fun _ _ => rfl⟩
    · show h.nfree + 1 = ((i :: near).length + Slot.window h.nmax h.uEndIndex h.uIndex : Nat)
      rw [List.length_cons]
      omega
    · apply chunk_outside shape inside
      intro a away
      refine (Mem.blit_outside ?_).trans (weird a away)
      rw [length_leBytes]
      omega
  have kept : h₁.nfree = h.nfree := rfl
  rw [kept]
  by_cases first : h.nfree = 0
  · rw [if_pos first]
    exact final _ (by rw [if_pos ⟨by omega, first⟩])
  · rw [if_neg first]
    exact final _ (by rw [if_neg fun both => first both.2])

theorem Use.kfreeOther (use : Use k s) (active : s.Active z h) (inside : i < h.nmax)
    (held : Held s.live (h.chunkAt i)) : Use k (Slab.kfreeOther z h (h.chunkAt i) s) := by
  obtain ⟨kind, near, far, ok, counted⟩ := use.zones z h active
  have busy := (ok.held_iff i inside).mpr held
  have shape := ok.shape
  have size := shape.size_pos
  unfold Slab.kfreeOther
  extract_lets rsignal bchunk signal h₁
  have given := ok.giveFar inside busy h₁.rCount
  refine @Use.zoneStep k s z h h₁ _ _ _ _ use active ⟨rfl, rfl, ⟨_, near, _, given.held_congr fun j _ => held_filter, counted⟩, ?_,
    fun c member => .inl (List.mem_of_mem_filter member), use.lost active inside, use.aryNodup,
    fun _ _ _ => Iff.rfl, ?_, ?_, ?_⟩
  · apply chunk_outside shape inside
    intro a away
    apply Mem.blit_outside
    rw [length_leBytes]
    omega
  · intro zi
    constructor
    · intro member
      have same := use.mem_ary active member
      rw [same] at member
      exact ⟨same, (use.listed z h active).mp member⟩
    · rintro ⟨rfl, some⟩
      exact (use.listed z h active).mpr some
  · have count := use.rCount z h active
    show (if signal then h.rCount + 1 else h.rCount) = ((if signal then s.messages ++ [z] else s.messages).count z : Nat)
    split
    · rw [List.count_append, List.count_singleton_self]
      push_cast
      omega
    · exact count
  · intro z' other
    split
    · rw [List.count_append, List.count_singleton]
      simp [other.symm]
    · rfl

/-- The message handler finds the zone it was sent for. -/
theorem Use.kfreeRemote (use : Use k s) (sent : z ∈ s.messages) :
    ∃ s', Slab.kfreeRemote k z s = .ok s' ∧ Use k s' := by
  obtain ⟨h, active⟩ := use.messages z sent
  obtain ⟨kind, near, far, ok, counted⟩ := use.zones z h active
  have counted : h.nfree = (near.length + Slot.window h.nmax h.uEndIndex h.uIndex : Nat) := counted
  have count := use.rCount z h active
  have some := List.count_pos_iff.mpr sent
  have shape := ok.shape
  unfold Slab.kfreeRemote
  rw [if_neg (fun other => other (use.kupZone z h active)), active.1]
  simp -zeta only
  rw [if_neg (by omega), if_neg (fun either => either.elim (· active.2) (· shape.cpu))]
  -- RSignal is dropped when there is something to fetch; either way the header is this one.
  obtain ⟨rSignal, cleared⟩ : ∃ rSignal, (if ({ h with rCount := h.rCount - 1 } : SLZone).rChunks ≠ 0 then
      { h with rCount := h.rCount - 1, rSignal := 0 } else { h with rCount := h.rCount - 1 } : SLZone) =
      { h with rCount := h.rCount - 1, rSignal } := by
    split
    · exact ⟨0, rfl⟩
    · exact ⟨h.rSignal, rfl⟩
  obtain ⟨h₁, mem, call, drained, same, moved⟩ := (ok.header h.nfree rSignal (h.rCount - 1)).drain
  have outside := ok.sameBut_outside same
  have slab : h₁.magic = zallocSlabMagic := drained.magic.trans active.2
  have nfree : h₁.nfree = h.nfree + (far.length : Int) := drained.nfree
  have index : h₁.zoneIndex = h.zoneIndex := (SLZone.chunkAt_congr drained.layout).2.2.2
  have window : Slot.window h₁.nmax h₁.uEndIndex h₁.uIndex = Slot.window h.nmax h.uEndIndex h.uIndex :=
    drained.window
  have rCount : h₁.rCount = h.rCount - 1 := drained.rCount
  have final : ∀ zoneAry : Int → List Nat,
      (zoneAry = if h₁.nfree ≠ 0 ∧ h.nfree = 0 then
        Function.update s.zoneAry h.zoneIndex (z :: s.zoneAry h.zoneIndex) else s.zoneAry) →
      ∃ s', Slab.retire z h₁ { s with mem, live := s.live, zoneAry, messages := s.messages.erase z } = .ok s' ∧
        Use k s' := by
    intro zoneAry lists
    obtain ⟨nodup, others, own⟩ := use.relist active (fun _ => by omega) lists
    refine Use.retire (use.zoneStep active ?_) slab
    refine ⟨drained.layout, drained.magic, ⟨_, _, _, moved, ?_⟩, outside, fun c member => .inl member,
      fun c member => .inl member, nodup, others, own, ?_, ?_⟩
    · unfold Counted
      rw [List.length_append, window]
      omega
    · rw [List.count_erase_self]
      omega
    · intro z' other
      exact List.count_erase_of_ne other
  extract_lets nfree₀ h₂ h₃
  have header : h₃ = { h with rCount := h.rCount - 1, rSignal } := cleared
  rw [header, show SLZone.drain k z { h with rCount := h.rCount - 1, rSignal } s.mem = _ from call]
  simp only
  by_cases first : h₁.nfree ≠ 0 ∧ h.nfree = 0
  · rw [if_pos first, index]
    exact final _ (by rw [if_pos first])
  · rw [if_neg first]
    exact final _ (by rw [if_neg first])

/-- A caller writes into a block it holds. -/
theorem Use.write (use : Use k s) (held : b ∈ s.live) (outside : ∀ a, a < b.ptr ∨ b.stop ≤ a → mem a = s.mem a) :
    Use k { s with mem } := by
  refine { use with zones := ?_ }
  intro z h active
  obtain ⟨kind, near, far, ok, counted⟩ := use.zones z h active
  refine ⟨kind, near, far, ?_, counted⟩
  obtain ⟨home, mapped, covers, either⟩ := use.live_home held
  by_cases same : home.ptr = z
  · rcases either with ⟨big, rfl⟩ | ⟨h', i, active', -, below, rfl⟩
    · have none := big.noZone
      rw [same, active.1] at none
      cases none
    · rw [same] at active'
      obtain rfl : h' = h := Option.some.inj (active'.1.symm.trans active.1)
      have busy := (ok.held_iff i below).mpr ⟨_, held, rfl⟩
      apply ok.write
      intro j inside other a lower upper
      have different : j ≠ i := fun same => other (same ▸ busy)
      have apart := Shape.chunk_apart h' different
      unfold Block.stop at outside
      exact outside a (by simp only; omega)
  · have apart := use.apart_of_ne mapped (use.place z h active.1).2 same
    have apart := apart.mono covers ⟨Nat.le_refl _, Nat.le_refl _⟩
    exact ok.frame apart outside fun _ _ => Iff.rfl

end Dragonfly.Kern.Slab
