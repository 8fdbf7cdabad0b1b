import Mathlib.Data.List.Basic
import Dragonfly.Lib.Run
import Dragonfly.Kern.Slab.Books

/-!
# `krealloc` keeps contents

The copy of `krealloc` ends at the smaller of the two sizes, and the old block is
freed only after it.
-/

namespace Dragonfly.Kern.Slab.Stats

open Lib

variable {k : Kernel} {sys sys' : System} {ncpus gd type bytes : Nat} {a : Account} {r : Resize} {s : State}
  {answer : Answer} {outcome : Outcome} {resize : Option Resize}

/-- What a `krealloc` that returns `ptr` has done; the old block held `data`. -/
def Kept (sys : System) (old : Account) (bytes : Nat) (data : List UInt8) (ptr : Nat) : Prop :=
  if ptr = 0 then bytes ≠ 0 → old ∈ sys.accounts ∧ sys.held old = data
  else
    ∃ a ∈ sys.accounts, a.block.ptr = ptr ∧ a.type = old.type ∧ bytes ≤ a.block.len ∧
      (sys.held a).take (min old.block.len bytes) = data.take (min old.block.len bytes)

/-- The old size that `krealloc` copies up to. -/
theorem Moving.found (core : Core k ncpus sys) (moving : Moving sys r) :
    r.osize.or (((sys.cpu r.old.cpu).zone (r.old.block.ptr / k.zoneSize * k.zoneSize)).map (·.chunkSize)) =
      some r.old.block.len := by
  have osize := moving.osize
  cases same : r.osize with
  | some n =>
      rw [same] at osize
      rw [Option.some_or, show n = r.old.block.len from osize]
  | none =>
      rw [same] at osize
      rw [Option.none_or]
      have use := core.use r.old.cpu
      rcases use.live _ (core.live_of moving.held) with ⟨z, h, i, active, inside, chunk⟩ | big
      · have shape := use.shape active
        rw [chunk]
        have zone : h.chunkAt i / k.zoneSize * k.zoneSize = z := shape.zone_of_chunk inside
        simp only [zone]
        rw [active.1]
        rfl
      · exact absurd big.count osize

/-- What is copied, read back. -/
theorem take_copy {mem mem' : Mem} {old new len copied n : Nat} (few : n ≤ copied) (inside : copied ≤ len) (whole : Nat)
    (enough : n ≤ whole) :
    ((mem'.blit new (mem.slice old copied)).slice new len).take n = (mem.slice old whole).take n := by
  have length := Mem.length_slice mem old copied
  have same := Mem.slice_blit_same mem' new (mem.slice old copied)
  rw [length] at same
  rw [Mem.take_slice _ _ (few.trans inside), ← Mem.take_slice _ _ few, same, Mem.take_slice _ _ few,
    Mem.take_slice _ _ enough]

theorem min32_le (a b : Nat) : min32 a b ≤ a := (Nat.min_le_left _ _).trans (Nat.mod_le _ _)

theorem min32_eq {a b : Nat} (first : a < 2 ^ 32) (second : b < 2 ^ 32) : min32 a b = min a b := by
  unfold min32
  rw [Nat.mod_eq_of_lt first, Nat.mod_eq_of_lt second]

/-- `krealloc` copies to its new block and frees the old one. -/
theorem Core.move (core : Core k ncpus sys) (here : a.cpu < ncpus) (moving : Moving sys r) (idle : sys.Idle r.old)
    (small : r.old.block.len < 2 ^ 31) (member : a ∈ sys.accounts) (own : sys.Idle a) (other : a ≠ r.old)
    (long : r.size ≤ a.block.len) (call : Stats.move k a.cpu a.block.ptr r sys = .ok sys') :
    Core k ncpus sys' ∧ sys'.callers = sys.callers ∧
      (∀ a', a' ∈ sys'.accounts ↔ a' ∈ sys.accounts ∧ a' ≠ r.old) ∧
      (a.block.len < 2 ^ 31 →
        (sys'.held a).take (min r.old.block.len r.bytes) = r.data.take (min r.old.block.len r.bytes)) := by
  unfold Stats.move at call
  simp only [moving.found core] at call
  have bound := min32_le r.size r.old.block.len
  have inside : a.block.Covers
      ⟨a.block.ptr, ((sys.cpu r.old.cpu).mem.slice r.old.block.ptr (min32 r.size r.old.block.len)).length⟩ := by
    constructor
    · exact Nat.le_refl _
    · show a.block.ptr + List.length _ ≤ a.block.ptr + a.block.len
      rw [Mem.length_slice]
      omega
  have core₁ := core.write member own inside
  obtain ⟨core₂, callers, accounts, keeps⟩ := core₁.kfree here moving.held idle small call
  refine ⟨core₂, callers, accounts, fun fits => ?_⟩
  have stays : a ∈ sys'.accounts := (accounts a).mpr ⟨member, other⟩
  rw [held_congr (keeps a stays), ← moving.data]
  unfold System.held
  rw [withCpu_self]
  have few := moving.long
  apply take_copy
  · rw [min32_eq (by omega) (by omega)]
    omega
  · omega
  · omega

/-! ## What `kmalloc` answers -/

/-- The allocator of cpu `gd` has answered a request for `bytes` bytes and is in state `s` now. -/
structure Answered (k : Kernel) (sys : System) (gd bytes : Nat) (answer : Answer) (s : State) : Prop where
  use : Use (on k gd) s
  keeps : ∀ b ∈ (sys.cpu gd).live, Keeps (sys.cpu gd) s b
  maps : ∀ d, d ≠ gd → ∀ b ∈ s.kernelMap, ∀ b' ∈ (sys.cpu d).kernelMap, b.Apart b'
  out : match answer with
    | .chunk ptr len =>
        s.live = ⟨ptr, len⟩ :: (sys.cpu gd).live ∧ (∀ b ∈ (sys.cpu gd).live, b.Apart ⟨ptr, len⟩) ∧ bytes ≤ len ∧
          s.pending = (sys.cpu gd).pending
    | .asleep =>
        s.live = (sys.cpu gd).live ∧ ∃ request, s.pending = (sys.cpu gd).pending ++ [request] ∧ request.bytes = bytes
    | .empty => s.live = (sys.cpu gd).live ∧ s.pending = (sys.cpu gd).pending ∧ bytes = 0
    | .null => s.live = (sys.cpu gd).live ∧ s.pending = (sys.cpu gd).pending

/-- A `krealloc` that asks `kmalloc` for `bytes` bytes. -/
structure Asking (sys : System) (type bytes : Nat) (r : Resize) : Prop where
  moving : Moving sys r
  asked : bytes = r.size
  type : type = r.old.type
  idle : sys.Idle r.old

theorem Answered.spared (core : Core k ncpus sys) (answered : Answered k sys gd bytes answer s) : Spared sys gd s := by
  intro caller waits r resize same
  have live := core.live_of ((core.callers caller waits).moving r resize).1.held
  rw [same] at live
  exact answered.keeps _ live

/-- The blocks that are live already are left alone. -/
theorem Answered.keeps_held (core : Core k ncpus sys) (answered : Answered k sys gd bytes answer s)
    (held : a ∈ sys.accounts) : Keeps (sys.cpu a.cpu) ((sys.withCpu gd s).cpu a.cpu) a.block := by
  refine withCpu_forall (fun c s => a.cpu = c → Keeps (sys.cpu a.cpu) s a.block) ?_ ?_ a.cpu rfl
  · intro cpu
    have live := core.live_of held
    rw [cpu] at live ⊢
    exact answered.keeps _ live
  · rintro c - cpu
    rw [cpu]
    exact .refl ..

/-- What a call has come to. -/
structure Came (sys sys' : System) (gd type : Nat) (resize : Option Resize) (answer : Answer) (outcome : Outcome) :
    Prop where
  accounts : ∀ a ∈ sys'.accounts, a ∈ sys.accounts ∨ ∃ ptr len, answer = .chunk ptr len ∧ a = ⟨gd, type, ⟨ptr, len⟩⟩
  new : ∀ ptr len, answer = .chunk ptr len → ⟨gd, type, ⟨ptr, len⟩⟩ ∈ sys'.accounts
  asleep : outcome = .asleep → ∃ request, sys'.callers = sys.callers ++ [⟨gd, type, request, resize⟩]
  kept : (∀ ptr len, answer = .chunk ptr len → len < 2 ^ 31) → ∀ r, resize = some r → ∀ ptr, outcome = .returns ptr →
    Kept sys' r.old r.bytes r.data ptr

/-- A call that returns without a block, for `krealloc` NULL. -/
theorem Came.of_quiet (core : Core k ncpus sys) (answered : Answered k sys gd bytes answer s)
    (asking : ∀ r, resize = some r → Asking sys type bytes r) {ptr : Nat}
    (none : ∀ ptr len, answer ≠ .chunk ptr len) (null : (∃ r, resize = some r) → ptr = 0) :
    Came sys (sys.withCpu gd s) gd type resize answer (.returns ptr) where
  accounts a member := .inl member
  new ptr len same := absurd same (none ptr len)
  asleep same := nomatch same
  kept _ r same ptr' returned := by
    obtain rfl := Outcome.returns.inj returned
    have asks := asking r same
    unfold Kept
    rw [if_pos (null ⟨r, same⟩)]
    refine fun _ => ⟨asks.moving.held, ?_⟩
    rw [← asks.moving.data]
    exact held_congr (answered.keeps_held core asks.moving.held)

/-- A call goes on with the answer of the allocator. -/
theorem Core.proceed (core : Core k ncpus sys) (here : gd < ncpus) (answered : Answered k sys gd bytes answer s)
    (asking : ∀ r, resize = some r → Asking sys type bytes r) (small : ∀ a ∈ sys.accounts, a.block.len < 2 ^ 31)
    (call : Stats.proceed k gd type resize answer s sys = .ok (outcome, sys')) :
    Core k ncpus sys' ∧ Came sys sys' gd type resize answer outcome := by
  have spared := answered.spared core
  have out := answered.out
  unfold Stats.proceed at call
  extract_lets sys₁ at call
  cases answer with
  | null =>
      obtain ⟨rfl, rfl⟩ := Prod.mk.inj (Except.ok.inj call)
      exact ⟨core.quiet answered.use out.1 answered.maps out.2 spared, .of_quiet core answered asking nofun fun _ => rfl⟩
  | empty =>
      obtain ⟨rfl, rfl⟩ := Prod.mk.inj (Except.ok.inj call)
      refine ⟨core.quiet answered.use out.1 answered.maps out.2.1 spared, .of_quiet core answered asking nofun ?_⟩
      rintro ⟨r, same⟩
      have asks := asking r same
      have nonempty := asks.moving.nonempty
      have long := asks.moving.long
      have asked := asks.asked
      have zero := out.2.2
      omega
  | asleep =>
      obtain ⟨live, request, pending, wanted⟩ := out
      simp only [pending, List.getLast?_concat] at call
      obtain ⟨rfl, rfl⟩ := Prod.mk.inj (Except.ok.inj call)
      constructor
      · refine core.wait ⟨gd, type, request, resize⟩ answered.use live answered.maps pending spared ?_ ?_
        · refine ⟨here, fun r same => ?_⟩
          have asks := asking r same
          have keeps := answered.keeps_held core asks.moving.held
          exact ⟨asks.moving.frame asks.moving.held keeps, wanted.trans asks.asked, asks.type⟩
        · exact fun r same => (asking r same).idle
      · exact ⟨fun a member => .inl member, nofun, fun _ => ⟨request, rfl⟩, fun _ _ _ _ returned => nomatch returned⟩
  | chunk ptr len =>
      obtain ⟨live, apart, enough, pending⟩ := out
      have core₁ := core.charge type here answered.use live apart answered.maps pending spared
      have new : Account.mk gd type ⟨ptr, len⟩ ∈ (sys₁.charge gd type ⟨ptr, len⟩).accounts := List.mem_cons_self
      have accounts : ∀ a ∈ (sys₁.charge gd type ⟨ptr, len⟩).accounts, a ∈ sys.accounts ∨
          ∃ ptr' len', Answer.chunk ptr len = .chunk ptr' len' ∧ a = ⟨gd, type, ⟨ptr', len'⟩⟩ := by
        intro a member
        rcases List.mem_cons.mp member with rfl | old
        · exact .inr ⟨ptr, len, rfl, rfl⟩
        · exact .inl old
      have nonnull : ptr ≠ 0 := (answered.use.live_ptr (by rw [live]; exact List.mem_cons_self)).1
      -- A block that is live already is another one.
      have different : ∀ {a}, a ∈ sys.accounts → Account.mk gd type ⟨ptr, len⟩ ≠ a := by
        rintro a old rfl
        have before := core.live_of old
        have some := (core.use gd).live_len before
        exact (apart _ before).ptr_ne some some rfl
      cases resize with
      | none =>
          obtain ⟨rfl, rfl⟩ := Prod.mk.inj (Except.ok.inj call)
          refine ⟨core₁, accounts, ?_, nofun, nofun⟩
          intro ptr' len' same
          obtain ⟨rfl, rfl⟩ := Answer.chunk.inj same
          exact new
      | some r =>
          have asks := asking r rfl
          have own : (sys₁.charge gd type ⟨ptr, len⟩).Idle ⟨gd, type, ⟨ptr, len⟩⟩ := fun caller waits r' same =>
            (different ((core.callers caller waits).moving r' same).1.held).symm
          simp only at call
          split at call
          · cases call
          rename_i sys₂ moved
          obtain ⟨rfl, rfl⟩ := Prod.mk.inj (Except.ok.inj call)
          have moving : Moving (sys₁.charge gd type ⟨ptr, len⟩) r :=
            asks.moving.frame (List.mem_cons_of_mem _ asks.moving.held) (answered.keeps_held core asks.moving.held)
          have asked := asks.asked
          obtain ⟨core₂, callers, left, contents⟩ := core₁.move here moving asks.idle (small _ asks.moving.held) new own
            (different asks.moving.held) (show r.size ≤ len by omega) moved
          have stays := (left _).mpr ⟨new, different asks.moving.held⟩
          refine ⟨core₂, fun a member => accounts a ((left a).mp member).1, ?_, nofun, ?_⟩
          · intro ptr' len' same
            obtain ⟨rfl, rfl⟩ := Answer.chunk.inj same
            exact stays
          · intro fits r' same ptr' returned
            obtain rfl := Option.some.inj same
            obtain rfl := Outcome.returns.inj returned
            have long := asks.moving.long
            unfold Kept
            rw [if_neg nonnull]
            exact ⟨_, stays, rfl, asks.type, show r.bytes ≤ len by omega, contents (fits ptr len rfl)⟩

/-- The limit of the type is reached. -/
theorem Came.limited (asking : ∀ r, resize = some r → Asking sys type bytes r) :
    Came sys sys gd type resize .null (.returns 0) where
  accounts a member := .inl member
  new _ _ same := nomatch same
  asleep same := nomatch same
  kept _ r same ptr returned := by
    obtain rfl := Outcome.returns.inj returned
    have moving := (asking r same).moving
    unfold Kept
    rw [if_pos rfl]
    exact fun _ => ⟨moving.held, moving.data⟩

theorem Core.kmalloc (core : Core k ncpus sys) (here : gd < ncpus) (below : bytes < 2 ^ 63) {flags : Flags}
    {limited : Bool} (asking : ∀ r, resize = some r → Asking sys type bytes r)
    (small : ∀ a ∈ sys.accounts, a.block.len < 2 ^ 31)
    (call : Stats.kmalloc k gd type bytes flags limited resize sys = .ok (outcome, sys')) :
    Core k ncpus sys' ∧ ∃ answer, Came sys sys' gd type resize answer outcome ∧
      ∀ ptr len, answer = .chunk ptr len → len < 2 ^ 31 := by
  unfold Stats.kmalloc at call
  split at call
  · obtain ⟨rfl, rfl⟩ := Prod.mk.inj (Except.ok.inj call)
    exact ⟨core, .null, .limited asking, nofun⟩
  split at call
  · cases call
  rename_i answer s slab
  have use := core.use gd
  obtain ⟨answer', s₁, same, kept, out⟩ := use.kmalloc below flags
  obtain ⟨rfl, rfl⟩ := Prod.mk.inj (Except.ok.inj (same.symm.trans slab))
  have provides := use.kmalloc_provides below slab
  have waits := provides.waits
  have answered : Answered k sys gd bytes answer' s₁ := by
    refine ⟨kept, fun b held => ⟨provides.kept b held, provides.kup _⟩, ?_, ?_⟩
    · apply core.maps_of_covered
      rw [provides.kernelMap]
      exact fun b member => ⟨b, member, Nat.le_refl _, Nat.le_refl _⟩
    · cases answer' with
      | chunk ptr len => exact ⟨out.live, out.apart, out.long, waits.1⟩
      | null => exact ⟨out, waits⟩
      | empty => exact ⟨out.2, waits, out.1⟩
      | asleep =>
          obtain ⟨request, pending, asked, -⟩ := waits
          exact ⟨out, request, pending, asked⟩
  obtain ⟨core', came⟩ := core.proceed here answered asking small call
  refine ⟨core', answer', came, ?_⟩
  rintro ptr len rfl
  have upper := waits.2
  omega

/-- Setting a cpu's allocator twice. -/
theorem withCpu_withCpu (sys : System) (gd : Nat) (first second : State) :
    (sys.withCpu gd first).withCpu gd second = sys.withCpu gd second := by
  unfold System.withCpu
  rw [Function.update_idem]

theorem proceed_withCpu (sys : System) (first : State) :
    Stats.proceed k gd type resize answer s (sys.withCpu gd first) = Stats.proceed k gd type resize answer s sys := by
  unfold Stats.proceed
  rw [withCpu_withCpu]

/-- What a call that has waited asked for still stands. -/
theorem Core.asking (core : Core k ncpus sys) {front back : List Caller} {caller : Caller}
    (waiting : sys.callers = front ++ caller :: back) (resized : caller.resize = some r) :
    Asking (sys.without front back caller) caller.type caller.request.bytes r := by
  have member : caller ∈ sys.callers := by
    rw [waiting]
    exact List.mem_append_cons_self
  obtain ⟨moving, asked, type⟩ := (core.callers caller member).moving r resized
  refine ⟨moving.frame moving.held (without_keeps ..), asked, type, ?_⟩
  · intro other stays r' same
    have exclusive := core.exclusive
    rw [waiting] at exclusive
    obtain ⟨-, last, across⟩ := List.pairwise_append.mp exclusive
    rcases List.mem_append.mp stays with before | after
    · exact across other before caller List.mem_cons_self r' same r resized
    · exact ((List.pairwise_cons.mp last).1 other after r resized r' same).symm

/-- `kmem_slab_alloc` has found memory. -/
theorem Core.granted (core : Core k ncpus sys) {front back : List Caller} {caller : Caller} {addr : Nat} {mem : Mem}
    (waiting : sys.callers = front ++ caller :: back) (small : ∀ a ∈ sys.accounts, a.block.len < 2 ^ 31)
    (grant : Granted (on k caller.gd) (sys.cpu caller.gd) addr (caller.request.wants k).1
      (caller.request.wants k).2.1 (caller.request.wants k).2.2 mem)
    (unused : ∀ c, ∀ b ∈ (sys.cpu c).kernelMap, b.Apart ⟨addr, (caller.request.wants k).1⟩)
    (call : Stats.resume k caller (some (addr, mem)) { sys with callers := front ++ back } = .ok (outcome, sys')) :
    Core k ncpus sys' ∧ ∃ ptr, Came (sys.without front back caller) sys' caller.gd caller.type caller.resize
      (.chunk ptr caller.request.length) outcome := by
  have core₀ := core.leave waiting
  have use := core.use caller.gd
  have member : caller ∈ sys.callers := by
    rw [waiting]
    exact List.mem_append_cons_self
  have here := (core.callers caller member).here
  have pending : caller.request ∈ (sys.cpu caller.gd).pending := by
    refine (core.pending caller.gd).mem_iff.mp (List.mem_map.mpr ⟨caller, ?_, rfl⟩)
    exact List.mem_filter.mpr ⟨member, by simp⟩
  obtain ⟨answer, s, slab, kept, out⟩ := use.resume_some pending grant
  obtain ⟨agree, kup, kernelMap, erased, ptr, rfl⟩ := use.resume_provides pending grant slab
  have answered : Answered k (sys.without front back caller) caller.gd caller.request.bytes
      (.chunk ptr caller.request.length) s := by
    have self : (sys.without front back caller).cpu caller.gd =
        { sys.cpu caller.gd with pending := (sys.cpu caller.gd).pending.erase caller.request } := withCpu_self ..
    refine ⟨kept, ?_, ?_, ?_⟩
    · rw [self]
      exact fun b held => ⟨agree b held, kup b held⟩
    · intro d other b mapped b' mapped'
      have away : (sys.without front back caller).cpu d = sys.cpu d := withCpu_of_ne _ other _
      rw [away] at mapped'
      rw [kernelMap] at mapped
      rcases List.mem_cons.mp mapped with rfl | old
      · exact (unused d b' mapped').symm
      · exact core.maps caller.gd d other.symm b old b' mapped'
    · rw [self]
      exact ⟨out.live, out.apart, out.long, erased⟩
  unfold Stats.resume at call
  have slab' : Slab.resume (on k caller.gd) caller.request (some addr) { sys.cpu caller.gd with
      mem
      kernelMap := ⟨addr, (caller.request.wants k).1⟩ :: (sys.cpu caller.gd).kernelMap
      pending := (sys.cpu caller.gd).pending.erase caller.request } = (.chunk ptr caller.request.length, s) := slab
  simp only [Option.map_some, slab'] at call
  rw [← proceed_withCpu { sys with callers := front ++ back }] at call
  obtain ⟨core', came⟩ := core₀.proceed here answered (fun r => core.asking waiting) small call
  exact ⟨core', ptr, came⟩

/-- `kmem_slab_alloc` has found none. -/
theorem Core.refused (core : Core k ncpus sys) {front back : List Caller} {caller : Caller}
    (waiting : sys.callers = front ++ caller :: back) (small : ∀ a ∈ sys.accounts, a.block.len < 2 ^ 31)
    (call : Stats.resume k caller none { sys with callers := front ++ back } = .ok (outcome, sys')) :
    Core k ncpus sys' ∧
      Came (sys.without front back caller) sys' caller.gd caller.type caller.resize .null outcome := by
  have core₀ := core.leave waiting
  have member : caller ∈ sys.callers := by
    rw [waiting]
    exact List.mem_append_cons_self
  have here := (core.callers caller member).here
  have self : (sys.without front back caller).cpu caller.gd =
      { sys.cpu caller.gd with pending := (sys.cpu caller.gd).pending.erase caller.request } := withCpu_self ..
  have answered : Answered k (sys.without front back caller) caller.gd caller.request.bytes .null
      { sys.cpu caller.gd with pending := (sys.cpu caller.gd).pending.erase caller.request } := by
    refine ⟨(core.use caller.gd).erasePending _, ?_, ?_, ?_⟩
    · rw [self]
      exact fun b _ => .refl ..
    · intro d other b mapped b' mapped'
      have away : (sys.without front back caller).cpu d = sys.cpu d := withCpu_of_ne _ other _
      rw [away] at mapped'
      exact core.maps caller.gd d other.symm b mapped b' mapped'
    · rw [self]
      exact ⟨rfl, rfl⟩
  unfold Stats.resume at call
  simp only [Option.map_none, Slab.resume] at call
  rw [← proceed_withCpu { sys with callers := front ++ back }] at call
  exact core₀.proceed here answered (fun r => core.asking waiting) small call

end Dragonfly.Kern.Slab.Stats
