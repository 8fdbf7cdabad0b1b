import Mathlib.Data.List.Basic
import Dragonfly.Kern.Slab.Free

/-!
# No chunk is handed out twice

Every call of a run returns, keeps the allocator's invariant, and what `kmalloc`
returns is new.
-/

namespace Dragonfly.Kern.Slab

open Lib

variable {k : Kernel} {s s' : State} {z : Nat} {h : SLZone} {b : Block} {flags : Flags} {size : Nat}
  {answer : Answer} {request : Request}

/-- What a call has handed out, if it has. -/
def HandedOut (k : Kernel) (s s' : State) (bytes : Nat) (flags : Flags) : Answer → Prop
  | .chunk p len => Returned k s s' bytes flags p len
  | .empty => bytes = 0 ∧ s'.live = s.live
  | _ => s'.live = s.live

theorem Use.pend (use : Use k s) (ok : request.Ok k) : Use k { s with pending := s.pending ++ [request] } := by
  refine { use with pending := ?_ }
  intro other member
  rcases List.mem_append.mp member with old | new
  · exact use.pending other old
  · rwa [List.mem_singleton.mp new]

/-- Laying out a recycled zone replaces its old header. -/
theorem makeZone_dropFree (k : Kernel) (zi : Int) (size : Nat) (flags : Flags) (z : Nat) (rest : List Nat) (s : State) :
    makeZone k zi size flags z true { s with freeZones := rest, nFreeZones := s.nFreeZones - 1 } =
      makeZone k zi size flags z true (s.dropFree z rest) := by
  unfold makeZone State.dropFree
  simp only [Function.update_idem]

/-- The limit of a malloc type keeps requests far below `2 ^ 63`. -/
theorem Kernel.request_lt (below : size ≤ k.kvaEnd - k.kvaStart) : size < 2 ^ 63 := by
  have kva := k.kva
  omega

theorem Use.kmalloc (use : Use k s) (below : size < 2 ^ 63) (flags : Flags) :
    ∃ answer s', Slab.kmalloc k size flags s = .ok (answer, s') ∧ Use k s' ∧ HandedOut k s s' size flags answer := by
  unfold Slab.kmalloc
  by_cases empty : size = 0
  · rw [if_pos empty]
    exact ⟨_, _, rfl, use, empty, rfl⟩
  rw [if_neg empty]
  by_cases large : k.oversized size = true
  · rw [if_pos large]
    refine ⟨_, _, rfl, use.pend ?_, rfl⟩
    show k.oversized size ∧ size ≤ roundPage size ∧ 0 < roundPage size ∧ pageSize ∣ roundPage size
    rw [roundPage_eq below]
    have long := @le_roundUp size pageSize (by decide)
    exact ⟨large, long, by omega, dvd_roundUp⟩
  rw [if_neg large]
  have small : size < k.zoneLimit := by
    unfold Kernel.oversized at large
    simp only [Bool.or_eq_true, decide_eq_true_eq, not_or] at large
    omega
  obtain ⟨c, zi, classified, long, chunk⟩ := zoneindex_spec (Nat.pos_of_ne_zero empty) small
  rw [classified]
  simp only
  rw [if_neg (fun other => other chunk.index.2)]
  cases first : s.zoneAry zi with
  | cons z rest =>
      obtain ⟨h, active, rfl⟩ := use.ary zi z (by rw [first]; exact List.mem_cons_self)
      have same : c = h.chunkSize := chunk.determined.trans (use.shape active).size.determined.symm
      subst same
      obtain ⟨p, s', call, kept, returned⟩ := use.fromZone active first long flags
      simp only [active.1]
      exact ⟨_, s', call, kept, returned⟩
  | nil =>
      simp only
      cases free : s.freeZones with
      | nil =>
          have ok : Request.Ok k (.zone size zi c flags) := ⟨long, chunk⟩
          refine ⟨_, _, rfl, ?_, rfl⟩
          rw [← free]
          exact use.pend ok
      | cons z rest =>
          obtain ⟨dropped, vacant, aligned⟩ := use.dropFree free
          obtain ⟨p, s', call, kept, returned⟩ := dropped.makeZone vacant aligned chunk long flags
            (show true = false → _ from nofun)
          simp only [makeZone_dropFree, call]
          exact ⟨_, s', rfl, kept, returned.live, returned.apart, returned.long, returned.zero, returned.inside⟩

theorem Use.resume_some (use : Use k s) (waiting : request ∈ s.pending) {addr : Nat} {mem : Mem}
    (granted : Granted k s addr (request.wants k).1 (request.wants k).2.1 (request.wants k).2.2 mem) :
    ∃ answer s', Slab.resume k request (some addr)
        { s with mem, kernelMap := ⟨addr, (request.wants k).1⟩ :: s.kernelMap, pending := s.pending.erase request } =
          (answer, s') ∧
      Use k s' ∧ HandedOut k s s' request.bytes request.flags answer := by
  have ok := use.pending request waiting
  cases request with
  | zone bytes zi size flags =>
      obtain ⟨long, chunk⟩ := ok
      have aligned : k.zoneSize ∣ addr := granted.aligned
      obtain ⟨mapped, vacant⟩ := use.grant (.zone bytes zi size flags) granted (zoneSize_pos k)
        ((pageSize_dvd_zoneSize k).trans aligned)
      obtain ⟨p, s', call, kept, returned⟩ := mapped.makeZone vacant aligned chunk long flags
        (show false = false → _ from fun _ => granted.zeroed rfl)
      exact ⟨_, s', call, kept, returned.live, returned.apart, returned.long, returned.zero, returned.inside⟩
  | oversized bytes size flags =>
      obtain ⟨large, long, positive, pages⟩ := ok
      have aligned : pageSize ∣ addr := granted.aligned
      obtain ⟨mapped, vacant⟩ := use.grant (.oversized bytes size flags) granted positive aligned
      have new := mapped.newBig vacant pages
      have bound : 8 ≤ size := (show 8 ≤ pageSize by decide).trans (Nat.le_of_dvd positive pages)
      unfold Slab.resume
      simp only
      obtain ⟨mem', finished, -, -, left⟩ := done_spec k flags.passive addr bound { s with
        mem
        kernelMap := ⟨addr, size⟩ :: s.kernelMap
        pending := s.pending.erase (.oversized bytes size flags)
        kup := Function.update s.kup (addr / pageSize) (size / pageSize : Nat) }
      obtain rfl := left rfl rfl
      refine ⟨_, _, finished, new, rfl, fun b held => mapped.vacant_apart vacant held, long, ?_,
        .inr ⟨large, aligned, pages⟩⟩
      exact granted.zeroed

theorem Use.releaseZone (use : Use k s) : Use k (Slab.releaseZone k s) := by
  unfold Slab.releaseZone
  cases free : s.freeZones with
  | nil => exact use
  | cons z rest =>
      simp only
      split
      · obtain ⟨dropped, vacant, -⟩ := use.dropFree free
        refine @Use.forget k _ _ dropped vacant (Function.update s.kup (z / pageSize) 0)
          (fun page other => Function.update_of_ne other ..) ?_
        rw [Function.update_self]
        exact Int.lt_irrefl 0
      · exact use

theorem Use.releaseOvZone (use : Use k s) : ∃ s', Slab.releaseOvZone s = .ok s' ∧ Use k s' ∧ s'.live = s.live := by
  unfold Slab.releaseOvZone
  cases free : s.freeOvZones with
  | nil => exact ⟨s, rfl, use, rfl⟩
  | cons o rest =>
      obtain ⟨magic, dropped, vacant⟩ := use.dropOv free
      simp only
      rw [if_neg (fun other => other magic)]
      exact ⟨_, rfl, @Use.forget k _ _ dropped vacant s.kup (fun _ _ => rfl) vacant.kup, rfl⟩

/-- An `int` holds a size below `2 ^ 31`. -/
theorem int32_eq {n : Nat} (small : n < 2 ^ 31) : int32 n = n := by
  unfold int32
  omega

/-- A page count that is shifted: a size below `2 ^ 31` comes back. -/
theorem kupBytes_eq {kup : Int} (small : kup.toNat * pageSize < 2 ^ 31) : kupBytes kup = kup.toNat * pageSize := by
  rw [kupBytes, int32_eq small]
  omega

theorem pageSize_dvd_kupBytes (kup : Int) : pageSize ∣ kupBytes kup := by
  unfold kupBytes int32 pageSize
  omega

/-- No page count above zero stands where a chunk begins. -/
theorem Use.chunk_kup (use : Use k s) (active : s.Active z h) {i : Nat} (inside : i < h.nmax) :
    ¬0 < s.kup (h.chunkAt i / pageSize) := by
  have shape := use.shape active
  have size := shape.size_pos
  have lower := shape.chunkAt_lower i
  have upper := shape.chunkAt_upper inside
  intro count
  obtain ⟨c, -, at', big⟩ := use.kupBig _ count
  have other : c.ptr ≠ z := by
    intro same
    have none := big.noZone
    rw [same, active.1] at none
    cases none
  have apart := use.apart_of_ne big.mapped (use.place z h active.1).2 other
  have division := Nat.div_add_mod (h.chunkAt i) pageSize
  have remainder := Nat.mod_lt (h.chunkAt i) (show 0 < pageSize by decide)
  have page : pageSize ≤ c.len := by
    have count := big.count
    have whole : 1 * pageSize ≤ (s.kup (c.ptr / pageSize)).toNat * pageSize := Nat.mul_le_mul_right _ (by omega)
    rw [big.length]
    omega
  rw [Nat.mul_comm] at division
  unfold Block.Apart Block.stop at apart
  simp only at apart
  omega

/-- `kfree` of a live block; an oversized block of `2 ^ 31` bytes or more may not pass the assertion. -/
theorem Use.kfree (use : Use k s) (held : b ∈ s.live) (gd : Nat) (intr : Bool)
    (small : intr = true → b.len < 2 ^ 31) :
    (∃ s', Slab.kfree k gd intr b.ptr s = .ok s' ∧ Use k s') ∨
      2 ^ 31 ≤ b.len ∧ Slab.kfree k gd intr b.ptr s = .error .assertion := by
  have kva := k.kva
  unfold Slab.kfree
  rcases use.live b held with ⟨z, h, i, active, inside, rfl⟩ | big
  · have shape := use.shape active
    have size := shape.size_pos
    have lower := shape.chunkAt_lower i
    have upper := shape.chunkAt_upper inside
    have first := shape.lower
    have last := shape.upper
    have live : Held s.live (h.chunkAt i) := ⟨_, held, rfl⟩
    refine .inl ?_
    show ∃ s', (if h.chunkAt i = 0 then _ else _) = _ ∧ _
    rw [if_neg (shape.chunkAt_pos i), if_neg (by unfold zeroLengthPtr; show h.chunkAt i ≠ _; omega)]
    rw [if_neg (use.chunk_kup active inside)]
    simp only [shape.zone_of_chunk inside]
    rw [if_neg (by rw [use.kupZone z h active]; omega), active.1]
    simp only
    rw [if_neg (fun other => other active.2)]
    split
    · exact ⟨_, rfl, use.kfreeOther active inside live⟩
    · exact use.kfreeLocal active inside live
  · have mapped := use.mapped b big.mapped
    have pages : (s.kup (b.ptr / pageSize)).toNat * pageSize = b.len := big.length.symm
    have page : pageSize ≤ b.len := by
      have count := big.count
      have whole : 1 * pageSize ≤ (s.kup (b.ptr / pageSize)).toNat * pageSize := Nat.mul_le_mul_right _ (by omega)
      omega
    have large : 4096 ≤ b.len := page
    have stop : b.ptr + b.len ≤ k.kvaEnd := mapped.2.2.2
    have exact : b.len < 2 ^ 31 → kupBytes (s.kup (b.ptr / pageSize)) = b.len := fun less => by
      rw [kupBytes_eq (by omega), pages]
    rw [if_neg (by omega), if_neg (by unfold zeroLengthPtr; omega), if_pos big.count]
    simp only
    by_cases fails : k.invariants = true ∧ kupBytes (s.kup (b.ptr / pageSize)) < maxCopy
    · rw [if_pos fails]
      refine .inr ⟨?_, rfl⟩
      by_contra less
      have size := exact (by omega)
      unfold maxCopy at fails
      omega
    rw [if_neg fails]
    refine .inl ?_
    have outside : ∀ a, a < b.ptr ∨ b.stop ≤ a →
        (if k.invariants then s.mem.blit b.ptr weirdary else s.mem) a = s.mem a := by
      intro a away
      unfold Block.stop at away
      split
      · apply Mem.blit_outside
        have length : weirdary.length = 64 := rfl
        omega
      · rfl
    obtain ⟨dropped, vacant⟩ := use.dropBig big outside
    cases intr with
    | true =>
        rw [if_pos rfl, exact (small rfl), int32_eq (small rfl)]
        exact ⟨_, rfl, dropped.addOv vacant (small rfl)⟩
    | false =>
        rw [if_neg Bool.false_ne_true]
        exact ⟨_, rfl, dropped.unmap vacant (pageSize_dvd_kupBytes _)⟩

/-! ## Runs -/

theorem Use.init (k : Kernel) (mem : Mem) (zoneRelsThresh : Int) : Use k (State.init mem zoneRelsThresh) where
  zones _ _ active := nomatch active.1
  place _ _ here := nomatch here
  listed _ _ active := nomatch active.1
  aryNodup _ := List.nodup_nil
  ary _ _ member := nomatch member
  freeNodup := List.nodup_nil
  free z := by
    constructor
    · intro member
      cases member
    · rintro ⟨h, here, -⟩
      cases here
  freeCount := rfl
  kupZone _ _ active := nomatch active.1
  kupBig _ count := absurd count (Int.lt_irrefl 0)
  live _ member := nomatch member
  ovNodup := List.nodup_nil
  ov _ member := nomatch member
  apart := List.Pairwise.nil
  mapped _ member := nomatch member
  pending _ member := nomatch member
  rCount _ _ active := nomatch active.1
  messages _ member := nomatch member

/-- What a step hands out. -/
def Label.HandsOut (k : Kernel) (s s' : State) : Label → Prop
  | .kmalloc size flags answer => HandedOut k s s' size flags answer
  | .resume request _ answer => HandedOut k s s' request.bytes request.flags answer
  | _ => True

theorem Use.step {label : Label} (use : Use k s) (step : Step k s label s') :
    Use k s' ∧ label.HandsOut k s s' := by
  cases step with
  | kmalloc below call =>
      obtain ⟨answer, s₁, same, kept, out⟩ := use.kmalloc (Kernel.request_lt below) _
      obtain ⟨rfl, rfl⟩ := Prod.mk.inj (Except.ok.inj (same.symm.trans call))
      exact ⟨kept, out⟩
  | granted waiting grant call =>
      obtain ⟨answer, s₁, same, kept, out⟩ := use.resume_some waiting grant
      obtain ⟨rfl, rfl⟩ := Prod.mk.inj (same.symm.trans call)
      exact ⟨kept, out⟩
  | refused waiting call =>
      obtain ⟨rfl, rfl⟩ := Prod.mk.inj call
      exact ⟨use.erasePending _, rfl⟩
  | releaseZone wait => exact ⟨use.releaseZone, trivial⟩
  | releaseOvZone wait call =>
      obtain ⟨s₁, same, kept, -⟩ := use.releaseOvZone
      obtain rfl := Except.ok.inj (same.symm.trans call)
      exact ⟨kept, trivial⟩
  | @kfree _ gd intr b held own call =>
      obtain ⟨s₁, same, kept⟩ | ⟨-, fails⟩ := use.kfree held gd intr fun interrupt => (own interrupt).2
      · obtain rfl := Except.ok.inj (same.symm.trans call)
        exact ⟨kept, trivial⟩
      · cases fails.symm.trans call
  | kfreeEmpty call =>
      obtain rfl := Except.ok.inj (show Except.ok s = Except.ok s' from call)
      exact ⟨use, trivial⟩
  | kfreeRemote sent call =>
      obtain ⟨s₁, same, kept⟩ := use.kfreeRemote sent
      obtain rfl := Except.ok.inj (same.symm.trans call)
      exact ⟨kept, trivial⟩
  | write held inside =>
      refine ⟨use.write held fun a away => ?_, trivial⟩
      apply Mem.blit_outside
      unfold Block.Covers Block.stop at inside
      unfold Block.stop at away
      simp only at inside
      omega
  | sysctl zoneRelsThresh useMallocPattern => exact ⟨{ use with }, trivial⟩

/-- Every state of a run keeps the invariant. -/
theorem Use.run {mem : Mem} {zoneRelsThresh : Int} {labels : List Label}
    (run : Run (Step k) (State.init mem zoneRelsThresh) labels s) : Use k s :=
  run.invariant (fun use step => (use.step step).1) (Use.init k mem zoneRelsThresh)

/-- No live block has a byte in a retired zone. -/
theorem Use.retired_idle (use : Use k s) (here : s.zone z = some h) (retired : h.magic ≠ zallocSlabMagic)
    (held : b ∈ s.live) : b.Apart ⟨z, k.zoneSize⟩ := by
  obtain ⟨home, mapped, covers, either⟩ := use.live_home held
  have other : home.ptr ≠ z := by
    intro same
    rcases either with ⟨big, rfl⟩ | ⟨h', i, active, -, -, -⟩
    · have none := big.noZone
      rw [same, here] at none
      cases none
    · rw [same] at active
      obtain rfl := Option.some.inj (active.1.symm.trans here)
      exact retired active.2
  exact (use.apart_of_ne mapped (use.place z h here).2 other).mono covers ⟨Nat.le_refl _, Nat.le_refl _⟩

/-- `z_NFree` counts the chunks that are neither live nor on `z_RChunks`: those on `z_LChunks` and
those never used. -/
def CountsFree (s : State) (h : SLZone) : Prop :=
  ∃ near far : List Nat, Chain (cNext s.mem) near h.lChunks ∧ Tail near h.lChunksp ∧
    Chain (cNext s.mem) far h.rChunks ∧
    (∀ p, p ∈ near ∨ p ∈ far → ∃ i, i < h.nmax ∧ p = h.chunkAt i ∧ ¬Held s.live p) ∧ (near ++ far).Nodup ∧
    h.nfree = (near.length + Slot.window h.nmax h.uEndIndex h.uIndex : Nat) ∧
    ∃ free : Finset Nat, (∀ i, i ∈ free ↔ i < h.nmax ∧ ¬Held s.live (h.chunkAt i) ∧ h.chunkAt i ∉ far) ∧
      h.nfree = (free.card : Nat)

theorem Use.countsFree (use : Use k s) (active : s.Active z h) : CountsFree s h := by
  obtain ⟨kind, near, far, ok, counted⟩ := use.zones z h active
  have counted : h.nfree = (near.length + Slot.window h.nmax h.uEndIndex h.uIndex : Nat) := counted
  have away : ∀ i, i < h.nmax → (h.chunkAt i ∈ far.map h.chunkAt ↔ kind i = .far) := by
    intro i inside
    rw [List.mem_map]
    constructor
    · rintro ⟨j, listed, same⟩
      rw [← ok.shape.chunkAt_inj same]
      exact ((ok.slots.mem_far j).mp listed).2
    · exact fun there => ⟨i, (ok.slots.mem_far i).mpr ⟨inside, there⟩, rfl⟩
  refine ⟨near.map h.chunkAt, far.map h.chunkAt, ok.lChunks, ok.lChunksp, ok.rChunks, ?_, ?_, ?_,
    (Finset.range h.nmax).filter fun i => kind i ≠ .busy ∧ kind i ≠ .far, ?_, ?_⟩
  · rintro p (member | member)
    · obtain ⟨i, listed, rfl⟩ := List.mem_map.mp member
      obtain ⟨inside, there⟩ := (ok.slots.mem_near i).mp listed
      refine ⟨i, inside, rfl, fun held => ?_⟩
      exact nomatch there.symm.trans ((ok.held_iff i inside).mpr held)
    · obtain ⟨i, listed, rfl⟩ := List.mem_map.mp member
      obtain ⟨inside, there⟩ := (ok.slots.mem_far i).mp listed
      refine ⟨i, inside, rfl, fun held => ?_⟩
      exact nomatch there.symm.trans ((ok.held_iff i inside).mpr held)
  · rw [← List.map_append]
    exact ok.slots.drain.near_nodup.map_on fun i _ j _ same => ok.shape.chunkAt_inj same
  · rw [List.length_map]
    exact counted
  · intro i
    rw [Finset.mem_filter, Finset.mem_range]
    constructor
    · rintro ⟨inside, notBusy, notFar⟩
      rw [← ok.held_iff i inside, away i inside]
      exact ⟨inside, notBusy, notFar⟩
    · rintro ⟨inside, free, notFar⟩
      rw [← ok.held_iff i inside] at free
      rw [away i inside] at notFar
      exact ⟨inside, free, notFar⟩
  · rw [ok.slots.card_free]
    exact counted

/-- In every run of `kmalloc` and `kfree` the counts are right, every zone is on the list it belongs on,
no call panics (the free of `2 ^ 31` bytes or more apart), and what `kmalloc` returns is new, long enough, aligned, inside one zone and zero if asked. -/
theorem slab_sound {mem : Mem} {zoneRelsThresh : Int} {labels : List Label}
    (run : Run (Step k) (State.init mem zoneRelsThresh) labels s) :
    (∀ z h, s.Active z h → CountsFree s h) ∧
    (∀ z h, s.Active z h → (z ∈ s.zoneAry h.zoneIndex ↔ 0 < h.nfree) ∧
      (∀ zi, z ∈ s.zoneAry zi → zi = h.zoneIndex) ∧ (s.zoneAry h.zoneIndex).Nodup ∧ z ∉ s.freeZones) ∧
    (∀ z h, s.zone z = some h → h.magic ≠ zallocSlabMagic →
      z ∈ s.freeZones ∧ s.freeZones.Nodup ∧ (∀ zi, z ∉ s.zoneAry zi) ∧ ∀ b ∈ s.live, b.Apart ⟨z, k.zoneSize⟩) ∧
    (∀ label s', Step k s label s' → label.HandsOut k s s') ∧
    (∀ size flags, size ≤ k.kvaEnd - k.kvaStart → ∃ result, kmalloc k size flags s = .ok result) ∧
    (∀ b ∈ s.live, ∀ gd intr, b.len < 2 ^ 31 → ∃ s', kfree k gd intr b.ptr s = .ok s') ∧
    (∀ z ∈ s.messages, ∃ s', kfreeRemote k z s = .ok s') ∧ ∃ s', releaseOvZone s = .ok s' := by
  have use := Use.run run
  refine ⟨fun z h active => use.countsFree active, ?_, ?_, fun label s' step => (use.step step).2, ?_, ?_, ?_, ?_⟩
  · intro z h active
    obtain ⟨kind, near, far, ok, counted⟩ := use.zones z h active
    unfold Counted at counted
    refine ⟨?_, fun zi member => use.mem_ary active member, use.aryNodup _, fun member => ?_⟩
    · rw [use.listed z h active]
      omega
    · obtain ⟨h', here, retired⟩ := (use.free z).mp member
      obtain rfl := Option.some.inj (active.1.symm.trans here)
      exact retired active.2
  · intro z h here retired
    refine ⟨(use.free z).mpr ⟨h, here, retired⟩, use.freeNodup, fun zi member => ?_,
      fun b held => use.retired_idle here retired held⟩
    obtain ⟨h', active, -⟩ := use.ary zi z member
    obtain rfl := Option.some.inj (active.1.symm.trans here)
    exact retired active.2
  · intro size flags below
    obtain ⟨answer, s', call, -⟩ := use.kmalloc (Kernel.request_lt below) flags
    exact ⟨_, call⟩
  · intro b held gd intr small
    obtain ⟨s', call, -⟩ | ⟨large, -⟩ := use.kfree held gd intr fun _ => small
    · exact ⟨s', call⟩
    · omega
  · intro z sent
    obtain ⟨s', call, -⟩ := use.kfreeRemote sent
    exact ⟨s', call⟩
  · obtain ⟨s', call, -⟩ := use.releaseOvZone
    exact ⟨s', call⟩

/-- A machine with a gigabyte of memory. -/
def gigabyte : Kernel where
  usesize := 2 ^ 20
  invariants := true
  slabDebug := false
  cpuid := 0
  kvaStart := 2 ^ 40
  kvaEnd := 2 ^ 40 + 2 ^ 30
  kva := by decide

/-- The first request makes a zone and gets its first chunk. -/
theorem slab_sound_first : ∃ labels s, labels.length = 2 ∧
    Run (Step gigabyte) (State.init (fun _ => 0) 32) labels s ∧ s.live.length = 1 ∧
    ∀ z h, s.Active z h → CountsFree s h := by
  have asleep : ∃ s, Step gigabyte (State.init (fun _ => 0) 32) (.kmalloc 100 ⟨true, false, false⟩ .asleep) s ∧
      s = { State.init (fun _ => 0) 32 with pending := [.zone 100 12 104 ⟨true, false, false⟩] } :=
    ⟨_, .kmalloc (by decide) rfl, rfl⟩
  obtain ⟨s, first, rfl⟩ := asleep
  have grant : Granted gigabyte { State.init (fun _ => 0) 32 with pending := [.zone 100 12 104 ⟨true, false, false⟩] }
      (2 ^ 40) gigabyte.zoneSize gigabyte.zoneSize true (fun _ => 0) := by
    refine ⟨Nat.le_refl _, by decide, by decide, fun b member => ?_, fun _ _ => rfl, fun _ _ _ _ => rfl⟩
    cases member
  have second := @Step.granted gigabyte _ _ (.zone 100 12 104 ⟨true, false, false⟩) _ _ _ List.mem_cons_self grant rfl
  have run := Run.cons first (Run.cons second (.nil _))
  exact ⟨_, _, rfl, run, rfl, (slab_sound run).1⟩

end Dragonfly.Kern.Slab
