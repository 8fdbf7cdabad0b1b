import Mathlib.Data.List.Basic
import Dragonfly.Kern.Slab.Handout

/-!
# Live blocks keep their bytes

What a call writes lies in the chunk it hands out, in the block it takes back or
in the link field of a free chunk.  Beside the bytes of the other live blocks a
call keeps the live blocks, the kernel map and the waiting calls, as far as it
does not hand out, take back or wait, and no page count of a chunk becomes one of
an oversized block.
-/

namespace Dragonfly.Kern.Slab

open Lib

variable {k : Kernel} {s s' : State} {z p : Nat} {h h' : SLZone} {b c : Block} {flags : Flags} {size : Nat}
  {answer : Answer} {request : Request} {zi : Int}

/-- Different live blocks have no byte in common. -/
theorem Use.live_apart (use : Use k s) (first : b ∈ s.live) (second : c ∈ s.live) (other : b ≠ c) : b.Apart c := by
  obtain ⟨home, mapped, covers, either⟩ := use.live_home first
  obtain ⟨home', mapped', covers', either'⟩ := use.live_home second
  by_cases same : home.ptr = home'.ptr
  · obtain rfl := use.mapped_unique mapped mapped' same
    have clash : ∀ {d h}, s.IsBig d → d.ptr = home.ptr → s.Active home.ptr h → False := by
      intro d h big at' active
      exact nomatch (at' ▸ big.noZone).symm.trans active.1
    rcases either with ⟨big, rfl⟩ | ⟨h, i, active, -, inside, rfl⟩
    · rcases either' with ⟨-, rfl⟩ | ⟨h, j, active, -, -, rfl⟩
      · exact absurd rfl other
      · exact (clash big rfl active).elim
    · rcases either' with ⟨big, rfl⟩ | ⟨h', j, active', -, inside', rfl⟩
      · exact (clash big rfl active).elim
      · obtain rfl := Option.some.inj (active.1.symm.trans active'.1)
        have different : i ≠ j := by
          rintro rfl
          exact other rfl
        exact Shape.chunk_apart h different
  · exact (use.apart_of_ne mapped mapped' same).mono covers covers'

/-- A live block is known by its address. -/
theorem Use.live_unique (use : Use k s) (first : b ∈ s.live) (second : c ∈ s.live) (same : b.ptr = c.ptr) : b = c := by
  by_contra other
  exact (use.live_apart first second other).ptr_ne (use.live_len first) (use.live_len second) same

/-- A call that neither hands out nor takes back nor waits. -/
structure Spares (s s' : State) : Prop where
  bytes : ∀ b ∈ s.live, Mem.AgreeOn s'.mem s.mem b.ptr b.stop
  live : s'.live = s.live
  kernelMap : s'.kernelMap = s.kernelMap
  pending : s'.pending = s.pending
  kup : ∀ page, 0 < s'.kup page → 0 < s.kup page

/-- Only lists and headers change. -/
theorem Spares.of_mem (mem : s'.mem = s.mem) (live : s'.live = s.live) (kernelMap : s'.kernelMap = s.kernelMap)
    (pending : s'.pending = s.pending) (kup : ∀ page, 0 < s'.kup page → 0 < s.kup page) : Spares s s' where
  bytes _ _ a _ _ := congrFun mem a
  live := live
  kernelMap := kernelMap
  pending := pending
  kup := kup

/-- A page count that is cleared. -/
theorem kup_cleared {kup : Nat → Int} {page other : Nat} {count : Int} (none : ¬0 < count)
    (some : 0 < Function.update kup page count other) : 0 < kup other := by
  rcases eq_or_ne other page with rfl | different
  · rw [Function.update_self] at some
    exact absurd some none
  · rwa [Function.update_of_ne different] at some

theorem Spares.trans {s'' : State} (first : Spares s s') (second : Spares s' s'') : Spares s s'' where
  bytes b held := (second.bytes b (first.live ▸ held)).trans (first.bytes b held)
  live := second.live.trans first.live
  kernelMap := second.kernelMap.trans first.kernelMap
  pending := second.pending.trans first.pending
  kup page some := first.kup page (second.kup page some)

/-- Moving a zone between lists. -/
theorem retire_spares (call : Slab.retire z h s = .ok s') : Spares s s' := by
  unfold Slab.retire at call
  simp only at call
  split at call
  · split at call
    · cases call
      exact .of_mem rfl rfl rfl rfl fun _ => kup_cleared (Int.lt_irrefl 0)
    · cases call
  · cases call
    exact .of_mem rfl rfl rfl rfl fun _ => id

/-- Draining writes to link fields of free chunks. -/
theorem ZoneOk.sameBut_spares {mem : Mem} {kind : Nat → Slot} {near far : List Nat} (use : Use k s)
    (active : s.Active z h) (ok : ZoneOk k s.mem (Held s.live) z h kind near far) (same : SameBut h s.mem mem near)
    (held : b ∈ s.live) : Mem.AgreeOn mem s.mem b.ptr b.stop := by
  intro a lower upper
  apply same
  intro i listed
  obtain ⟨inside, there⟩ := (ok.slots.mem_near i).mp listed
  have free : ¬Held s.live (h.chunkAt i) := by
    rw [← ok.held_iff i inside, there]
    nofun
  have apart := use.apart_of_free active inside free held
  have size := ok.shape.size_pos
  unfold Block.Apart Block.stop at *
  simp only at apart
  omega

/-- `z_RChunks` is appended to `z_LChunks`, whatever the counters of the header. -/
theorem Use.drain_spares (use : Use k s) (active : s.Active z h) {nfree : Int} {rSignal : Nat} {rCount : Int}
    {mem : Mem} (call : SLZone.drain k z { h with nfree, rSignal, rCount } s.mem = .ok (h', mem)) (held : b ∈ s.live) :
    Mem.AgreeOn mem s.mem b.ptr b.stop := by
  obtain ⟨kind, near, far, ok, -⟩ := use.zones z h active
  obtain ⟨h₁, mem₁, same, -, writes, -⟩ := (ok.header nfree rSignal rCount).drain
  obtain ⟨-, rfl⟩ := Prod.mk.inj (Except.ok.inj (same.symm.trans call))
  exact ok.sameBut_spares use active writes held

theorem Use.lastChunk_spares (use : Use k s) (active : s.Active z h) {nfree : Int}
    (call : Slab.lastChunk k zi z { h with nfree } s = .ok (h', s')) : Spares s s' := by
  unfold Slab.lastChunk at call
  split at call
  · cases call
  obtain ⟨rSignal, signalled⟩ : ∃ rSignal, (if ({ h with nfree } : SLZone).rChunks = 0 then { h with nfree, rSignal := 1 }
      else { h with nfree } : SLZone) = { h with nfree, rSignal } := by
    split
    · exact ⟨1, rfl⟩
    · exact ⟨h.rSignal, rfl⟩
  simp only at signalled call
  rw [signalled] at call
  split at call
  · cases call
  · rename_i h₁ mem drained
    have bytes : ∀ b ∈ s.live, Mem.AgreeOn mem s.mem b.ptr b.stop := fun b held => use.drain_spares active drained held
    split at call
    · cases call
      exact ⟨bytes, rfl, rfl, rfl, fun _ => id⟩
    · cases call
      exact ⟨bytes, rfl, rfl, rfl, fun _ => id⟩

/-- The message handler hands out nothing and takes nothing back. -/
theorem Use.kfreeRemote_spares (use : Use k s) (sent : z ∈ s.messages) (call : Slab.kfreeRemote k z s = .ok s') :
    Spares s s' := by
  obtain ⟨h, active⟩ := use.messages z sent
  unfold Slab.kfreeRemote at call
  rw [active.1] at call
  split at call
  · cases call
  simp only at call
  split at call
  · cases call
  split at call
  · cases call
  obtain ⟨rSignal, cleared⟩ : ∃ rSignal, (if h.rChunks ≠ 0 then
      { h with rCount := h.rCount - 1, rSignal := 0 } else { h with rCount := h.rCount - 1 } : SLZone) =
      { h with rCount := h.rCount - 1, rSignal } := by
    split
    · exact ⟨0, rfl⟩
    · exact ⟨h.rSignal, rfl⟩
  rw [cleared] at call
  split at call
  · cases call
  · rename_i h₁ mem drained
    have bytes : ∀ b ∈ s.live, Mem.AgreeOn mem s.mem b.ptr b.stop := fun b held => use.drain_spares active drained held
    have first : ∀ zoneAry, Spares s { s with mem, messages := s.messages.erase z, zoneAry } :=
      fun zoneAry => ⟨bytes, rfl, rfl, rfl, fun _ => id⟩
    split at call
    · exact (first _).trans (retire_spares call)
    · exact (first s.zoneAry).trans (retire_spares call)

/-! ## `kmalloc` -/

/-- The length of the block that a waiting call will return. -/
def Request.length : Request → Nat
  | .oversized _ size _ => size
  | .zone _ _ size _ => size

/-- The end of `kmalloc` writes to the chunk only. -/
theorem done_agree (k : Kernel) (flags : Flags) (large : 8 ≤ size) (apart : b.Apart ⟨p, size⟩) :
    Mem.AgreeOn (done k flags p size s).2.mem s.mem b.ptr b.stop := by
  obtain ⟨mem, finished, outside, -, -⟩ := done_spec k flags p large s
  rw [finished]
  intro a lower upper
  apply outside
  unfold Block.Apart Block.stop at *
  simp only at apart
  omega

/-- The list of waiting calls after a `kmalloc` of `bytes` bytes. -/
def Waits (s s' : State) (bytes : Nat) : Answer → Prop
  | .asleep => ∃ request, s'.pending = s.pending ++ [request] ∧ request.bytes = bytes ∧
      (request.length = roundPage bytes ∨ request.length ≤ 16384)
  | .chunk _ size => s'.pending = s.pending ∧ size ≤ 16384
  | _ => s'.pending = s.pending

/-- The parts of the state that a call of `kmalloc` keeps. -/
structure Provides (s s' : State) (bytes : Nat) (answer : Answer) : Prop where
  kept : ∀ b ∈ s.live, Mem.AgreeOn s'.mem s.mem b.ptr b.stop
  kernelMap : s'.kernelMap = s.kernelMap
  kup : ∀ page, 0 < s'.kup page → 0 < s.kup page
  waits : Waits s s' bytes answer

theorem Use.fromZone_provides (use : Use k s) (active : s.Active z h) {rest : List Nat}
    (first : s.zoneAry h.zoneIndex = z :: rest) (flags : Flags) {bytes : Nat}
    (call : Slab.fromZone k h.zoneIndex z h h.chunkSize flags s = .ok (answer, s')) : Provides s s' bytes answer := by
  obtain ⟨p, s₁, same, -, returned⟩ := use.fromZone active first (Nat.zero_le _) flags
  obtain ⟨rfl, rfl⟩ := Prod.mk.inj (Except.ok.inj (same.symm.trans call))
  have shape := use.shape active
  unfold Slab.fromZone at call
  simp only at call
  split at call
  · cases call
  rename_i h₁ s₂ provided
  have spares : Spares s s₂ := by
    split at provided
    · exact use.lastChunk_spares active provided
    · cases provided
      exact .of_mem rfl rfl rfl rfl fun _ => id
  split at call
  · cases call
  rename_i chunk flags' h₂ taken
  obtain ⟨answered, last⟩ := Prod.mk.inj (Except.ok.inj call)
  obtain ⟨rfl, -⟩ := Answer.chunk.inj answered
  constructor
  · intro b held
    have written := @done_agree { s₂ with zone := Function.update s₂.zone z (some h₂) } chunk b h.chunkSize k flags'
      shape.size_pos (returned.apart b held)
    rw [show (done k flags' chunk h.chunkSize _).2 = s₁ from last] at written
    exact written.trans (spares.bytes b held)
  · rw [← last]
    exact spares.kernelMap
  · rw [← last]
    exact spares.kup
  · refine ⟨?_, shape.size.upper⟩
    rw [← last]
    exact spares.pending

/-- Laying out a zone writes to its first chunk only. -/
theorem makeZone_provides (s : State) (bytes : Nat) (chunk : ChunkSize k zi size) (flags : Flags) (z : Nat)
    (unotzerod : Bool) {s₀ : State} (call : Slab.makeZone k zi size flags z unotzerod s₀ = (answer, s'))
    (apart : ∀ p len, answer = .chunk p len → ∀ b ∈ s.live, b.Apart ⟨p, len⟩)
    (mem : ∀ b ∈ s.live, Mem.AgreeOn s₀.mem s.mem b.ptr b.stop) :
    (∀ b ∈ s.live, Mem.AgreeOn s'.mem s.mem b.ptr b.stop) ∧ s'.kernelMap = s₀.kernelMap ∧
      (∀ page, 0 < s'.kup page → 0 < s₀.kup page) ∧ Waits s₀ s' bytes answer ∧ ∃ p, answer = .chunk p size := by
  unfold Slab.makeZone at call
  extract_lets off nmax uIndex chunk' h at call
  obtain ⟨answered, last⟩ := Prod.mk.inj call
  have answered : Answer.chunk chunk' size = answer := answered
  subst answered
  refine ⟨fun b held => ?_, ?_, ?_, ⟨?_, chunk.upper⟩, _, rfl⟩
  · rw [← last]
    exact (done_agree k _ chunk.lower (apart _ _ rfl b held)).trans (mem b held)
  · rw [← last]
  · rw [← last]
    exact fun page => kup_cleared (by omega)
  · rw [← last]

theorem Use.kmalloc_provides (use : Use k s) (below : size < 2 ^ 63)
    (call : Slab.kmalloc k size flags s = .ok (answer, s')) : Provides s s' size answer := by
  obtain ⟨answer', s₁, same, -, out⟩ := use.kmalloc below flags
  obtain ⟨rfl, rfl⟩ := Prod.mk.inj (Except.ok.inj (same.symm.trans call))
  have unchanged : ∀ b ∈ s.live, Mem.AgreeOn s.mem s.mem b.ptr b.stop := fun _ _ _ _ _ => rfl
  unfold Slab.kmalloc at call
  by_cases empty : size = 0
  · rw [if_pos empty] at call
    cases call
    exact ⟨unchanged, rfl, fun _ => id, rfl⟩
  rw [if_neg empty] at call
  by_cases large : k.oversized size = true
  · rw [if_pos large] at call
    cases call
    exact ⟨unchanged, rfl, fun _ => id, _, rfl, rfl, .inl rfl⟩
  rw [if_neg large] at call
  have small : size < k.zoneLimit := by
    unfold Kernel.oversized at large
    simp only [Bool.or_eq_true, decide_eq_true_eq, not_or] at large
    omega
  obtain ⟨c, zi, classified, long, chunk⟩ := zoneindex_spec (Nat.pos_of_ne_zero empty) small
  rw [classified] at call
  simp only at call
  rw [if_neg (fun other => other chunk.index.2)] at call
  split at call
  · rename_i z rest first
    obtain ⟨h, active, rfl⟩ := use.ary zi z (by rw [first]; exact List.mem_cons_self)
    have same : c = h.chunkSize := chunk.determined.trans (use.shape active).size.determined.symm
    subst same
    simp only [active.1] at call
    exact use.fromZone_provides active first flags call
  · split at call
    · obtain ⟨bytes, kernelMap, kup, waits, -⟩ := makeZone_provides s size chunk flags _ true
        (Except.ok.inj call) (fun p len same b held => by
          rw [same] at out
          exact out.apart b held) unchanged
      exact ⟨bytes, kernelMap, kup, waits⟩
    · cases call
      exact ⟨unchanged, rfl, fun _ => id, _, rfl, rfl, .inr chunk.upper⟩

/-- A call that has waited gets a block of the length it waited for. -/
theorem Use.resume_provides (use : Use k s) (waiting : request ∈ s.pending) {addr : Nat} {mem : Mem}
    (granted : Granted k s addr (request.wants k).1 (request.wants k).2.1 (request.wants k).2.2 mem)
    (call : Slab.resume k request (some addr)
      { s with mem, kernelMap := ⟨addr, (request.wants k).1⟩ :: s.kernelMap, pending := s.pending.erase request } =
        (answer, s')) :
    (∀ b ∈ s.live, Mem.AgreeOn s'.mem s.mem b.ptr b.stop) ∧
      (∀ b ∈ s.live, 0 < s'.kup (b.ptr / pageSize) → 0 < s.kup (b.ptr / pageSize)) ∧
      s'.kernelMap = ⟨addr, (request.wants k).1⟩ :: s.kernelMap ∧ s'.pending = s.pending.erase request ∧
      ∃ p, answer = .chunk p request.length := by
  obtain ⟨answer', s₁, same, -, out⟩ := use.resume_some waiting granted
  obtain ⟨rfl, rfl⟩ := Prod.mk.inj (same.symm.trans call)
  have ok := use.pending request waiting
  have outside : ∀ b ∈ s.live, Mem.AgreeOn mem s.mem b.ptr b.stop := by
    intro b held a lower upper
    apply granted.outside
    obtain ⟨home, mapped, covers, -⟩ := use.live_home held
    have apart := granted.unused home mapped
    unfold Block.Apart Block.Covers Block.stop at *
    simp only at apart
    omega
  cases request with
  | zone bytes zi size flags =>
      obtain ⟨bytes, kernelMap, kup, waits, answered⟩ := makeZone_provides s bytes ok.2 flags _ false call
        (fun p len same b held => by
          rw [same] at out
          exact out.apart b held) outside
      obtain ⟨p, rfl⟩ := answered
      exact ⟨bytes, fun b _ => kup _, kernelMap, waits.1, p, rfl⟩
  | oversized bytes size flags =>
      obtain ⟨large, long, positive, pages⟩ := ok
      have bound : 8 ≤ size := (show 8 ≤ pageSize by decide).trans (Nat.le_of_dvd positive pages)
      unfold Slab.resume at call
      obtain ⟨answered, last⟩ := Prod.mk.inj call
      have answered : Answer.chunk addr size = answer' := answered
      subst answered
      refine ⟨fun b held => ?_, fun b held => ?_, ?_, ?_, _, rfl⟩
      · rw [← last]
        exact (done_agree k _ bound (out.apart b held)).trans (outside b held)
      · rw [← last]
        show 0 < Function.update s.kup (addr / pageSize) (size / pageSize : Nat) (b.ptr / pageSize) → _
        have other : b.ptr / pageSize ≠ addr / pageSize := by
          intro same
          have aligned : pageSize ∣ addr := granted.aligned
          have apart := out.apart b held
          have some := use.live_len held
          have whole := Nat.le_of_dvd positive pages
          have first := Nat.div_mul_cancel aligned
          have division := Nat.div_add_mod b.ptr pageSize
          have remainder := Nat.mod_lt b.ptr (show 0 < pageSize by decide)
          rw [Nat.mul_comm, same, first] at division
          unfold Block.Apart Block.stop at apart
          simp only at apart
          omega
        rw [Function.update_of_ne other]
        exact id
      · rw [← last]
      · rw [← last]

/-! ## `kfree` -/

/-- What a free of `b` keeps. -/
structure TakesBack (s s' : State) (b : Block) : Prop where
  kept : ∀ c ∈ s.live, c ≠ b → Mem.AgreeOn s'.mem s.mem c.ptr c.stop
  live : s'.live = s.live.filter (·.ptr ≠ b.ptr)
  pending : s'.pending = s.pending
  kernelMap : ∀ c ∈ s'.kernelMap, ∃ home ∈ s.kernelMap, home.Covers c
  kup : ∀ page, 0 < s'.kup page → 0 < s.kup page

theorem TakesBack.trans {s'' : State} (first : TakesBack s s' b) (second : Spares s' s'')
    (only : ∀ c ∈ s.live, c.ptr = b.ptr → c = b) : TakesBack s s'' b where
  kept c held other := by
    have still : c ∈ s'.live := by
      rw [first.live]
      exact List.mem_filter.mpr ⟨held, by simpa using fun same => other (only c held same)⟩
    exact (second.bytes c still).trans (first.kept c held other)
  live := second.live.trans first.live
  pending := second.pending.trans first.pending
  kernelMap c member := first.kernelMap c (second.kernelMap ▸ member)
  kup page some := first.kup page (second.kup page some)

/-- A write to a block leaves the blocks apart from it alone. -/
theorem agree_of_apart {mem mem' : Mem} (apart : b.Apart c) (outside : ∀ a, a < b.ptr ∨ b.stop ≤ a → mem' a = mem a) :
    Mem.AgreeOn mem' mem c.ptr c.stop := by
  intro a lower upper
  apply outside
  unfold Block.Apart at apart
  omega

theorem markFree_chunkSize {chunk : Nat} (marked : h.markFree k z chunk = .ok h') : h'.chunkSize = h.chunkSize := by
  unfold SLZone.markFree at marked
  split at marked
  · split at marked
    · cases marked
    split at marked
    · cases marked
    split at marked
    · cases marked
    · cases marked
      rfl
  · cases marked
    rfl

theorem Use.kfreeLocal_takesBack (use : Use k s) (active : s.Active z h) {i : Nat}
    (held : ⟨h.chunkAt i, h.chunkSize⟩ ∈ s.live) (call : Slab.kfreeLocal k z h (h.chunkAt i) s = .ok s') :
    TakesBack s s' ⟨h.chunkAt i, h.chunkSize⟩ := by
  have size := (use.shape active).size_pos
  unfold Slab.kfreeLocal at call
  split at call
  · cases call
  rename_i h₁ marked
  have same := markFree_chunkSize marked
  extract_lets mem₁ mem₂ h₂ s₁ at call
  have outside : ∀ a, a < h.chunkAt i ∨ h.chunkAt i + h.chunkSize ≤ a → mem₂ a = s.mem a := by
    intro a away
    have weird : mem₁ a = s.mem a := by
      show (if k.invariants then s.mem.blit (h.chunkAt i) (weirdary.take (min h₁.chunkSize maxCopy)) else s.mem) a = _
      split
      · apply Mem.blit_outside
        rw [List.length_take, same]
        omega
      · rfl
    refine (Mem.blit_outside ?_).trans weird
    rw [length_leBytes]
    omega
  have first : ∀ zoneAry, TakesBack s { s₁ with zoneAry } ⟨h.chunkAt i, h.chunkSize⟩ := fun zoneAry =>
    ⟨fun c other different => agree_of_apart (use.live_apart held other (Ne.symm different)) outside, rfl, rfl,
      fun c member => ⟨c, member, Nat.le_refl _, Nat.le_refl _⟩, fun _ => id⟩
  have only : ∀ c ∈ s.live, c.ptr = h.chunkAt i → c = ⟨h.chunkAt i, h.chunkSize⟩ :=
    fun c other at' => use.live_unique other held at'
  split at call
  · cases call
  split at call
  · cases call
  split at call
  · exact (first _).trans (retire_spares call) only
  · exact (first s₁.zoneAry).trans (retire_spares call) only

theorem Use.kfreeOther_takesBack (use : Use k s) (active : s.Active z h) {i : Nat}
    (held : ⟨h.chunkAt i, h.chunkSize⟩ ∈ s.live) :
    TakesBack s (Slab.kfreeOther z h (h.chunkAt i) s) ⟨h.chunkAt i, h.chunkSize⟩ := by
  have size := (use.shape active).size_pos
  unfold Slab.kfreeOther
  extract_lets rsignal bchunk signal h₁
  refine ⟨fun c other different => agree_of_apart (use.live_apart held other (Ne.symm different)) fun a away => ?_,
    rfl, rfl, fun c member => ⟨c, member, Nat.le_refl _, Nat.le_refl _⟩, fun _ => id⟩
  apply Mem.blit_outside
  rw [length_leBytes]
  unfold Block.stop at away
  simp only at away
  omega

/-- What `kmem_slab_free` leaves mapped was mapped. -/
theorem mem_kmemSlabFree {ptr size : Nat} {kernelMap : List Block} (member : c ∈ kmemSlabFree ptr size kernelMap) :
    ∃ home ∈ kernelMap, home.Covers c := by
  rw [kmemSlabFree] at member
  split at member
  · exact ⟨c, member, Nat.le_refl _, Nat.le_refl _⟩
  · obtain ⟨home, old, left⟩ := List.mem_flatMap.mp member
    exact ⟨home, old, (Block.mem_rest left).1⟩

theorem Use.kfree_takesBack (use : Use k s) (held : b ∈ s.live) {gd : Nat} {intr : Bool}
    (call : Slab.kfree k gd intr b.ptr s = .ok s') : TakesBack s s' b := by
  unfold Slab.kfree at call
  rcases use.live b held with ⟨z, h, i, active, inside, rfl⟩ | big
  · have shape := use.shape active
    have last := shape.upper
    have upper := shape.chunkAt_upper inside
    have size := shape.size_pos
    have kva := k.kva
    simp only at call
    rw [if_neg (shape.chunkAt_pos i), if_neg (by unfold zeroLengthPtr; omega),
      if_neg (show ¬s.kup (h.chunkAt i / pageSize) > 0 from use.chunk_kup active inside)] at call
    simp only [shape.zone_of_chunk inside] at call
    split at call
    · cases call
    rw [active.1] at call
    simp only at call
    split at call
    · cases call
    split at call
    · cases call
      exact use.kfreeOther_takesBack active held
    · exact use.kfreeLocal_takesBack active held call
  · split at call
    · cases call
    split at call
    · rename_i empty
      have mapped := use.mapped b big.mapped
      have kva := k.kva
      unfold Block.stop zeroLengthPtr at *
      omega
    rw [if_pos big.count] at call
    simp only at call
    split at call
    · cases call
    have page : 64 ≤ b.len := by
      have count := big.count
      have whole : 1 * pageSize ≤ (s.kup (b.ptr / pageSize)).toNat * pageSize := Nat.mul_le_mul_right _ (by omega)
      rw [big.length]
      exact (show 64 ≤ 1 * pageSize by decide).trans whole
    have outside : ∀ a, a < b.ptr ∨ b.stop ≤ a →
        (if k.invariants then s.mem.blit b.ptr weirdary else s.mem) a = s.mem a := by
      intro a away
      unfold Block.stop at away
      split
      · apply Mem.blit_outside
        have length : weirdary.length = 64 := rfl
        omega
      · rfl
    have kept : ∀ c ∈ s.live, c ≠ b →
        Mem.AgreeOn (if k.invariants then s.mem.blit b.ptr weirdary else s.mem) s.mem c.ptr c.stop :=
      fun c other different => agree_of_apart (use.live_apart held other (Ne.symm different)) outside
    split at call
    · cases call
      exact ⟨kept, rfl, rfl, fun c member => ⟨c, member, Nat.le_refl _, Nat.le_refl _⟩,
        fun _ => kup_cleared (Int.lt_irrefl 0)⟩
    · cases call
      exact ⟨kept, rfl, rfl, fun c member => mem_kmemSlabFree member, fun _ => kup_cleared (Int.lt_irrefl 0)⟩

end Dragonfly.Kern.Slab
