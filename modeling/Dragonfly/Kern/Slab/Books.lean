import Mathlib.Data.List.Basic
import Mathlib.Data.List.Perm.Basic
import Dragonfly.Kern.Slab.Balance

/-!
# The books of all cpus

The allocators of the cpus work on different pieces of the kernel map, every live
block has one account, and a `krealloc` that waits for memory finds its old block
as it left it.
-/

namespace Dragonfly.Kern.Slab

open Lib

variable {k : Kernel} {s : State} {b : Block}

/-- A piece of the kernel map of another cpu is queued here to be given back. -/
theorem Use.adopt (use : Use k s) {addr len : Nat} (unused : ∀ c ∈ s.kernelMap, c.Apart ⟨addr, len⟩) (some : 0 < len)
    (page : pageSize ∣ addr) (lower : k.kvaStart ≤ addr) (upper : addr + len ≤ k.kvaEnd) (small : len < 2 ^ 31) :
    Use k { s with
      freeOvZones := ⟨addr, zallocOvszMagic, (len : Nat)⟩ :: s.freeOvZones
      kernelMap := ⟨addr, len⟩ :: s.kernelMap } := by
  -- No call waits with this request, so that taking it off the list changes nothing.
  have absent : Request.oversized 0 0 ⟨false, false, false⟩ ∉ s.pending := fun member =>
    absurd (use.pending _ member).2.2.1 (Nat.lt_irrefl 0)
  have granted : Granted k s addr len 1 false s.mem :=
    ⟨lower, upper, Nat.one_dvd addr, unused, fun _ _ => rfl, nofun⟩
  obtain ⟨kept, vacant⟩ := use.grant (.oversized 0 0 ⟨false, false, false⟩) granted some page
  rw [List.erase_of_not_mem absent] at kept vacant
  exact kept.addOv vacant small

/-- A live block is neither at NULL nor at `ZERO_LENGTH_PTR`. -/
theorem Use.live_ptr (use : Use k s) (held : b ∈ s.live) : b.ptr ≠ 0 ∧ b.ptr ≠ zeroLengthPtr := by
  have kva := k.kva
  obtain ⟨home, mapped, covers, -⟩ := use.live_home held
  have bounds := use.mapped home mapped
  have some := use.live_len held
  unfold Block.Covers Block.stop at *
  unfold zeroLengthPtr
  omega

namespace Stats

variable {sys sys' : System} {ncpus gd type : Nat} {a : Account} {r : Resize} {caller : Caller}

/-- A block that a step leaves alone: its bytes, and that it is a chunk. -/
structure Keeps (s s' : State) (b : Block) : Prop where
  bytes : Mem.AgreeOn s'.mem s.mem b.ptr b.stop
  kup : 0 < s'.kup (b.ptr / pageSize) → 0 < s.kup (b.ptr / pageSize)

theorem Keeps.refl (s : State) (b : Block) : Keeps s s b := ⟨fun _ _ _ => rfl, id⟩

/-- A `krealloc` in progress: its old block is as it was at the call. -/
structure Moving (sys : System) (r : Resize) : Prop where
  held : r.old ∈ sys.accounts
  data : sys.held r.old = r.data
  nonempty : 0 < r.bytes
  long : r.bytes ≤ r.size
  osize : match r.osize with
    | some osize => osize = r.old.block.len
    | none => ¬0 < (sys.cpu r.old.cpu).kup (r.old.block.ptr / pageSize)

/-- A call that waits in `kmem_slab_alloc`. -/
structure Called (ncpus : Nat) (sys : System) (caller : Caller) : Prop where
  here : caller.gd < ncpus
  moving : ∀ r, caller.resize = some r → Moving sys r ∧ caller.request.bytes = r.size ∧ caller.type = r.old.type

/-- The invariant. -/
structure Core (k : Kernel) (ncpus : Nat) (sys : System) : Prop where
  use : ∀ c, Use (on k c) (sys.cpu c)
  live : ∀ c b, b ∈ (sys.cpu c).live ↔ ∃ type, ⟨c, type, b⟩ ∈ sys.accounts
  maps : ∀ c d, c ≠ d → ∀ b ∈ (sys.cpu c).kernelMap, ∀ b' ∈ (sys.cpu d).kernelMap, b.Apart b'
  pending : ∀ c, ((sys.callers.filter (·.gd = c)).map (·.request)).Perm (sys.cpu c).pending
  balanced : Balanced ncpus sys
  callers : ∀ caller ∈ sys.callers, Called ncpus sys caller
  exclusive : sys.callers.Pairwise fun a b => ∀ r, a.resize = some r → ∀ r', b.resize = some r' → r.old ≠ r'.old

theorem Core.live_of (core : Core k ncpus sys) (member : a ∈ sys.accounts) : a.block ∈ (sys.cpu a.cpu).live :=
  (core.live _ _).mpr ⟨a.type, member⟩

/-- One account for one block. -/
theorem Core.unique (core : Core k ncpus sys) {a' : Account} (first : a ∈ sys.accounts) (second : a' ∈ sys.accounts)
    (same : a.Same a') : a = a' := by
  by_contra other
  have distinct : sys.accounts.Pairwise fun a b => ¬a.Same b ∧ ¬b.Same a :=
    core.balanced.distinct.imp fun apart => ⟨apart, fun same => apart ⟨same.1.symm, same.2.symm⟩⟩
  have symm : Std.Symm fun a b : Account => ¬a.Same b ∧ ¬b.Same a := ⟨fun _ _ both => ⟨both.2, both.1⟩⟩
  exact (distinct.forall first second other).1 same

/-- Different blocks of one cpu have no byte in common. -/
theorem Core.apart (core : Core k ncpus sys) {a' : Account} (first : a ∈ sys.accounts) (second : a' ∈ sys.accounts)
    (other : a ≠ a') (cpu : a.cpu = a'.cpu) : a.block.Apart a'.block := by
  have held := core.live_of second
  rw [← cpu] at held
  refine (core.use a.cpu).live_apart (core.live_of first) held fun same => ?_
  exact other (core.unique first second ⟨cpu, congrArg Block.ptr same⟩)

@[simp]
theorem withCpu_self (sys : System) (gd : Nat) (s : State) : (sys.withCpu gd s).cpu gd = s := Function.update_self ..

theorem withCpu_of_ne (sys : System) {gd c : Nat} (other : c ≠ gd) (s : State) : (sys.withCpu gd s).cpu c = sys.cpu c :=
  Function.update_of_ne other ..

/-- What holds of the new allocator and of the others holds of all. -/
theorem withCpu_forall (P : Nat → State → Prop) (here : P gd s) (others : ∀ c, c ≠ gd → P c (sys.cpu c)) (c : Nat) :
    P c ((sys.withCpu gd s).cpu c) := by
  rcases eq_or_ne c gd with rfl | other
  · rwa [withCpu_self]
  · rw [withCpu_of_ne sys other]
    exact others c other

/-- A block that is left alone holds what it held. -/
theorem held_congr (keeps : Keeps (sys.cpu a.cpu) (sys'.cpu a.cpu) a.block) : sys'.held a = sys.held a :=
  Mem.slice_congr keeps.bytes

/-- A `krealloc` goes on as long as its old block is left alone. -/
theorem Moving.frame (moving : Moving sys r) (held : r.old ∈ sys'.accounts)
    (keeps : Keeps (sys.cpu r.old.cpu) (sys'.cpu r.old.cpu) r.old.block) : Moving sys' r where
  held := held
  data := (held_congr keeps).trans moving.data
  nonempty := moving.nonempty
  long := moving.long
  osize := by
    have osize := moving.osize
    split
    · rename_i n same
      rwa [same] at osize
    · rename_i same
      rw [same] at osize
      exact fun some => osize (keeps.kup some)

theorem Called.frame (called : Called ncpus sys caller)
    (keeps : ∀ r, caller.resize = some r → r.old ∈ sys'.accounts ∧
      Keeps (sys.cpu r.old.cpu) (sys'.cpu r.old.cpu) r.old.block) : Called ncpus sys' caller where
  here := called.here
  moving r resize :=
    have both := called.moving r resize
    ⟨both.1.frame (keeps r resize).1 (keeps r resize).2, both.2⟩

/-- Kernel maps that lie in the old ones are apart. -/
theorem Core.maps_of_covered (core : Core k ncpus sys)
    (covered : ∀ b ∈ s.kernelMap, ∃ home ∈ (sys.cpu gd).kernelMap, home.Covers b) :
    ∀ d, d ≠ gd → ∀ b ∈ s.kernelMap, ∀ b' ∈ (sys.cpu d).kernelMap, b.Apart b' := by
  intro d other b member b' member'
  obtain ⟨home, mapped, covers⟩ := covered b member
  exact (core.maps gd d (Ne.symm other) home mapped b' member').mono covers ⟨Nat.le_refl _, Nat.le_refl _⟩

theorem maps_withCpu
    (before : ∀ c d, c ≠ d → ∀ b ∈ (sys.cpu c).kernelMap, ∀ b' ∈ (sys.cpu d).kernelMap, b.Apart b')
    (maps : ∀ d, d ≠ gd → ∀ b ∈ s.kernelMap, ∀ b' ∈ (sys.cpu d).kernelMap, b.Apart b') (c d : Nat) (other : c ≠ d) :
    ∀ b ∈ ((sys.withCpu gd s).cpu c).kernelMap, ∀ b' ∈ ((sys.withCpu gd s).cpu d).kernelMap, b.Apart b' := by
  intro b member b' member'
  rcases eq_or_ne c gd with rfl | first
  · rw [withCpu_self] at member
    rw [withCpu_of_ne sys other.symm] at member'
    exact maps d other.symm b member b' member'
  · rw [withCpu_of_ne sys first] at member
    rcases eq_or_ne d gd with rfl | second
    · rw [withCpu_self] at member'
      exact (maps c first b' member' b member).symm
    · rw [withCpu_of_ne sys second] at member'
      exact before c d other b member b' member'

/-- The blocks that are being copied are left alone. -/
def Spared (sys : System) (gd : Nat) (s : State) : Prop :=
  ∀ caller ∈ sys.callers, ∀ r, caller.resize = some r → r.old.cpu = gd → Keeps (sys.cpu gd) s r.old.block

theorem Spared.keeps (spared : Spared sys gd s) (member : caller ∈ sys.callers) (resize : caller.resize = some r) :
    Keeps (sys.cpu r.old.cpu) ((sys.withCpu gd s).cpu r.old.cpu) r.old.block := by
  rcases eq_or_ne r.old.cpu gd with same | other
  · have keeps := spared caller member r resize same
    rw [same, withCpu_self]
    exact keeps
  · rw [withCpu_of_ne sys other]
    exact .refl ..

/-- A cpu does something that neither hands out nor takes back nor waits. -/
theorem Core.quiet (core : Core k ncpus sys) (use : Use (on k gd) s) (live : s.live = (sys.cpu gd).live)
    (maps : ∀ d, d ≠ gd → ∀ b ∈ s.kernelMap, ∀ b' ∈ (sys.cpu d).kernelMap, b.Apart b')
    (pending : s.pending = (sys.cpu gd).pending) (spared : Spared sys gd s) : Core k ncpus (sys.withCpu gd s) where
  use := withCpu_forall (fun c s => Use (on k c) s) use fun c _ => core.use c
  live c b := by
    refine withCpu_forall (fun c s => b ∈ s.live ↔ ∃ type, ⟨c, type, b⟩ ∈ sys.accounts) ?_ (fun c _ => core.live c b) c
    rw [live]
    exact core.live gd b
  maps := maps_withCpu core.maps maps
  pending := by
    refine withCpu_forall (fun c s => ((sys.callers.filter (·.gd = c)).map (·.request)).Perm s.pending) ?_
      fun c _ => core.pending c
    rw [pending]
    exact core.pending gd
  balanced := ⟨core.balanced.distinct, core.balanced.inuse, core.balanced.memuse⟩
  callers caller member := (core.callers caller member).frame fun r resize =>
    ⟨((core.callers caller member).moving r resize).1.held, spared.keeps member resize⟩
  exclusive := core.exclusive

/-- A cpu hands out a block. -/
theorem Core.charge (core : Core k ncpus sys) (type : Nat) (here : gd < ncpus) (use : Use (on k gd) s)
    (live : s.live = b :: (sys.cpu gd).live) (new : ∀ c ∈ (sys.cpu gd).live, c.Apart b)
    (maps : ∀ d, d ≠ gd → ∀ b ∈ s.kernelMap, ∀ b' ∈ (sys.cpu d).kernelMap, b.Apart b')
    (pending : s.pending = (sys.cpu gd).pending) (spared : Spared sys gd s) :
    Core k ncpus ((sys.withCpu gd s).charge gd type b) where
  use := withCpu_forall (fun c s => Use (on k c) s) use fun c _ => core.use c
  live c b' := by
    refine withCpu_forall (fun c s => b' ∈ s.live ↔ ∃ type', ⟨c, type', b'⟩ ∈ (⟨gd, type, b⟩ :: sys.accounts)) ?_ ?_ c
    · rw [live, List.mem_cons, core.live gd b']
      constructor
      · rintro (rfl | ⟨type', member⟩)
        · exact ⟨type, List.mem_cons_self⟩
        · exact ⟨type', List.mem_cons_of_mem _ member⟩
      · rintro ⟨type', member⟩
        rcases List.mem_cons.mp member with same | old
        · obtain ⟨-, -, rfl⟩ := Account.mk.inj same
          exact .inl rfl
        · exact .inr ⟨type', old⟩
    · intro c other
      rw [core.live c b']
      constructor
      · exact fun ⟨type', member⟩ => ⟨type', List.mem_cons_of_mem _ member⟩
      · rintro ⟨type', member⟩
        rcases List.mem_cons.mp member with same | old
        · exact absurd (Account.mk.inj same).1 other
        · exact ⟨type', old⟩
  maps := maps_withCpu core.maps maps
  pending := by
    refine withCpu_forall (fun c s => ((sys.callers.filter (·.gd = c)).map (·.request)).Perm s.pending) ?_
      fun c _ => core.pending c
    rw [pending]
    exact core.pending gd
  balanced := by
    have balanced : Balanced ncpus (sys.withCpu gd s) :=
      ⟨core.balanced.distinct, core.balanced.inuse, core.balanced.memuse⟩
    refine balanced.charge here fun a member same => ?_
    have old := core.live_of member
    rw [← show gd = a.cpu from same.1] at old
    have some : 0 < b.len := use.live_len (by rw [live]; exact List.mem_cons_self)
    exact (new a.block old).ptr_ne ((core.use gd).live_len old) some same.2.symm
  callers caller member := (core.callers caller member).frame fun r resize =>
    ⟨List.mem_cons_of_mem _ ((core.callers caller member).moving r resize).1.held, spared.keeps member resize⟩
  exclusive := core.exclusive

/-- A call goes to sleep in `kmem_slab_alloc`. -/
theorem Core.wait (core : Core k ncpus sys) (caller : Caller) (use : Use (on k caller.gd) s)
    (live : s.live = (sys.cpu caller.gd).live)
    (maps : ∀ d, d ≠ caller.gd → ∀ b ∈ s.kernelMap, ∀ b' ∈ (sys.cpu d).kernelMap, b.Apart b')
    (pending : s.pending = (sys.cpu caller.gd).pending ++ [caller.request]) (spared : Spared sys caller.gd s)
    (called : Called ncpus (sys.withCpu caller.gd s) caller)
    (idle : ∀ r, caller.resize = some r → sys.Idle r.old) :
    Core k ncpus { sys.withCpu caller.gd s with callers := sys.callers ++ [caller] } where
  use := withCpu_forall (fun c s => Use (on k c) s) use fun c _ => core.use c
  live c b := by
    refine withCpu_forall (fun c s => b ∈ s.live ↔ ∃ type, ⟨c, type, b⟩ ∈ sys.accounts) ?_ (fun c _ => core.live c b) c
    rw [live]
    exact core.live _ b
  maps := maps_withCpu core.maps maps
  pending := by
    refine withCpu_forall (fun c s =>
      (((sys.callers ++ [caller]).filter (·.gd = c)).map (·.request)).Perm s.pending) ?_ fun c other => ?_
    · rw [pending, List.filter_append, List.filter_cons_of_pos (by simp), List.map_append]
      exact (core.pending _).append_right _
    · rw [List.filter_append, List.filter_cons_of_neg (by simpa using other.symm)]
      simpa using core.pending c
  balanced := ⟨core.balanced.distinct, core.balanced.inuse, core.balanced.memuse⟩
  callers other member := by
    rcases List.mem_append.mp member with old | new
    · exact (core.callers other old).frame fun r resize =>
        ⟨((core.callers other old).moving r resize).1.held, spared.keeps old resize⟩
    · rw [List.mem_singleton.mp new]
      exact called.frame fun r resize => ⟨(called.moving r resize).1.held, .refl ..⟩
  exclusive := by
    refine List.pairwise_append.mpr ⟨core.exclusive, List.pairwise_singleton _ _, ?_⟩
    intro other member last same r resize r' resize'
    rw [List.mem_singleton.mp same] at resize'
    exact idle r' resize' other member r resize

/-- The system without a call that has waited. -/
def System.without (sys : System) (front back : List Caller) (caller : Caller) : System :=
  System.withCpu { sys with callers := front ++ back } caller.gd
    { sys.cpu caller.gd with pending := (sys.cpu caller.gd).pending.erase caller.request }

theorem without_keeps (sys : System) (front back : List Caller) (caller : Caller) (c : Nat) (b : Block) :
    Keeps (sys.cpu c) ((sys.without front back caller).cpu c) b := by
  rcases eq_or_ne c caller.gd with rfl | other
  · unfold System.without
    rw [withCpu_self]
    exact ⟨fun _ _ _ => rfl, id⟩
  · unfold System.without
    rw [withCpu_of_ne _ other]
    exact .refl ..

/-- A call that has waited goes on. -/
theorem Core.leave (core : Core k ncpus sys) {front back : List Caller} (waiting : sys.callers = front ++ caller :: back) :
    Core k ncpus (sys.without front back caller) := by
  have all : ∀ P : Nat → State → Prop,
      P caller.gd { sys.cpu caller.gd with pending := (sys.cpu caller.gd).pending.erase caller.request } →
      (∀ c, c ≠ caller.gd → P c (sys.cpu c)) → ∀ c, P c ((sys.without front back caller).cpu c) :=
    fun P here others => withCpu_forall P here others
  exact {
    use := all (fun c s => Use (on k c) s) ((core.use caller.gd).erasePending _) fun c _ => core.use c
    live := all (fun c s => ∀ b, b ∈ s.live ↔ ∃ type, ⟨c, type, b⟩ ∈ sys.accounts) (core.live _) fun c _ => core.live c
    maps := maps_withCpu core.maps <| by
      exact core.maps_of_covered fun b member => ⟨b, member, Nat.le_refl _, Nat.le_refl _⟩
    pending := by
      refine all (fun c s => (((front ++ back).filter (·.gd = c)).map (·.request)).Perm s.pending) ?_ fun c other => ?_
      · have before := core.pending caller.gd
        rw [waiting, List.filter_append, List.filter_cons_of_pos (by simp)] at before
        have moved := (List.perm_middle.map Caller.request).symm.trans before
        rw [List.map_cons] at moved
        have erased := moved.erase caller.request
        rw [List.erase_cons_head] at erased
        rwa [List.filter_append]
      · have before := core.pending c
        rw [waiting, List.filter_append, List.filter_cons_of_neg (by simpa using other.symm)] at before
        rwa [List.filter_append]
    balanced := ⟨core.balanced.distinct, core.balanced.inuse, core.balanced.memuse⟩
    callers := by
      intro other member
      have old : other ∈ sys.callers := by
        rw [waiting]
        exact List.mem_append.mpr ((List.mem_append.mp member).imp_right (List.mem_cons_of_mem _))
      refine (core.callers other old).frame fun r resize => ⟨((core.callers other old).moving r resize).1.held, ?_⟩
      exact without_keeps ..
    exclusive := by
      have exclusive := core.exclusive
      rw [waiting] at exclusive
      exact exclusive.sublist ((List.Sublist.refl front).append (List.sublist_cons_self caller back)) }

/-- An oversized block freed by an interrupt is queued on the cpu that frees it. -/
theorem Core.requeue (core : Core k ncpus sys) (cpu gd : Nat) : Core k ncpus (sys.requeue cpu gd) := by
  unfold System.requeue
  split
  · exact core
  rename_i o rest free
  extract_lets piece before sys₁
  have use := core.use cpu
  obtain ⟨magic, dropped, vacant⟩ := use.dropOv free
  obtain ⟨-, -, -, len, same, small, -⟩ := use.ov o (by rw [free]; exact List.mem_cons_self)
  have length : (o.chunkSize % 2 ^ 64).toNat = len := by
    rw [same]
    omega
  have mapped : piece ∈ (sys.cpu cpu).kernelMap := vacant.mapped
  obtain ⟨some, page, lower, upper⟩ := use.mapped piece mapped
  have distinct : (sys.cpu cpu).kernelMap.Nodup := by
    refine use.apart.imp_of_mem fun member _ apart same => ?_
    subst same
    exact apart.ptr_ne (use.mapped _ member).1 (use.mapped _ member).1 rfl
  have core₁ : Core k ncpus sys₁ := by
    refine core.quiet (@Use.forget _ _ _ dropped vacant _ (fun _ _ => rfl) vacant.kup) rfl ?_ rfl ?_
    · exact core.maps_of_covered fun b member => ⟨b, List.mem_of_mem_erase member, Nat.le_refl _, Nat.le_refl _⟩
    · exact fun caller _ r _ _ => ⟨fun _ _ _ => rfl, id⟩
  have gone : ∀ c, ∀ b ∈ (sys₁.cpu c).kernelMap, b.Apart piece := by
    refine withCpu_forall (fun c s => ∀ b ∈ s.kernelMap, b.Apart piece) ?_ fun c other b member => ?_
    · intro b member
      obtain ⟨different, old⟩ := (distinct.mem_erase_iff).mp member
      exact use.apart.forall old mapped different
    · exact core.maps c cpu other b member piece mapped
  have adopted : Use (on k gd) { sys₁.cpu gd with
      freeOvZones := ⟨o.addr, zallocOvszMagic, (piece.len : Nat)⟩ :: (sys₁.cpu gd).freeOvZones
      kernelMap := piece :: (sys₁.cpu gd).kernelMap } := by
    refine (core₁.use gd).adopt (gone gd) some page lower upper ?_
    show (o.chunkSize % 2 ^ 64).toNat < 2 ^ 31
    rwa [length]
  have entry : o = ⟨o.addr, zallocOvszMagic, (piece.len : Nat)⟩ := by
    show o = ⟨o.addr, zallocOvszMagic, ((o.chunkSize % 2 ^ 64).toNat : Nat)⟩
    rw [length, ← same, ← magic]
  rw [← entry] at adopted
  refine core₁.quiet adopted rfl (fun d other b member b' member' => ?_) rfl ?_
  · rcases List.mem_cons.mp member with rfl | old
    · exact (gone d b' member').symm
    · exact core₁.maps gd d other.symm b old b' member'
  · exact fun caller _ r _ _ => ⟨fun _ _ _ => rfl, id⟩

/-- What another cpu's lists hold does not matter to the blocks. -/
theorem requeue_keeps (sys : System) (cpu gd c : Nat) (b : Block) : Keeps (sys.cpu c) ((sys.requeue cpu gd).cpu c) b := by
  unfold System.requeue
  split
  · exact .refl ..
  extract_lets piece before sys₁
  have first : ∀ c, Keeps (sys.cpu c) (sys₁.cpu c) b :=
    withCpu_forall (fun c s => Keeps (sys.cpu c) s b) ⟨fun _ _ _ => rfl, id⟩ fun c _ => .refl ..
  refine withCpu_forall (fun c s => Keeps (sys.cpu c) s b) ?_ (fun c _ => first c) c
  exact ⟨(first gd).bytes, (first gd).kup⟩

theorem requeue_books (sys : System) (cpu gd : Nat) :
    (sys.requeue cpu gd).accounts = sys.accounts ∧ (sys.requeue cpu gd).callers = sys.callers := by
  unfold System.requeue
  split
  · exact ⟨rfl, rfl⟩
  · exact ⟨rfl, rfl⟩

/-- The books after a block is taken back. -/
theorem Core.takeBack (core : Core k ncpus sys) (here : gd < ncpus) (member : a ∈ sys.accounts) (idle : sys.Idle a)
    (use : Use (on k a.cpu) s) (takes : TakesBack (sys.cpu a.cpu) s a.block) :
    Core k ncpus ((sys.credit gd a.block.len a.type a.cpu a.block.ptr).withCpu a.cpu s) where
  use := withCpu_forall (fun c s => Use (on k c) s) use fun c _ => core.use c
  live c b := by
    have kept : ∀ c, (∃ type, ⟨c, type, b⟩ ∈ sys.accounts.filter fun a' => ¬(a'.cpu = a.cpu ∧ a'.block.ptr = a.block.ptr)) ↔
        b ∈ (sys.cpu c).live ∧ ¬(c = a.cpu ∧ b.ptr = a.block.ptr) := by
      intro c
      simp only [List.mem_filter, decide_eq_true_eq]
      rw [exists_and_right, ← core.live c b]
    refine withCpu_forall (fun c s => b ∈ s.live ↔ ∃ type, ⟨c, type, b⟩ ∈ sys.accounts.filter _) ?_ ?_ c
    · rw [kept, takes.live]
      simp
    · intro c other
      rw [kept]
      exact ⟨fun live => ⟨live, fun both => other both.1⟩, And.left⟩
  maps := maps_withCpu core.maps (core.maps_of_covered takes.kernelMap)
  pending := by
    refine withCpu_forall (fun c s => ((sys.callers.filter (·.gd = c)).map (·.request)).Perm s.pending) ?_
      fun c _ => core.pending c
    rw [takes.pending]
    exact core.pending a.cpu
  balanced :=
    have balanced := core.balanced.credit here member
    ⟨balanced.distinct, balanced.inuse, balanced.memuse⟩
  callers caller waits := by
    refine (core.callers caller waits).frame fun r resize => ?_
    have held := ((core.callers caller waits).moving r resize).1.held
    have other : r.old ≠ a := idle caller waits r resize
    have away : ¬(r.old.cpu = a.cpu ∧ r.old.block.ptr = a.block.ptr) := fun same => other (core.unique held member same)
    refine ⟨List.mem_filter.mpr ⟨held, decide_eq_true away⟩, ?_⟩
    refine withCpu_forall (fun c s => r.old.cpu = c → Keeps (sys.cpu r.old.cpu) s r.old.block) ?_ ?_ r.old.cpu rfl
    · intro same
      rw [same]
      have live := core.live_of held
      rw [same] at live
      exact ⟨takes.kept _ live fun block => away ⟨same, congrArg Block.ptr block⟩, takes.kup _⟩
    · rintro c - same
      rw [same]
      exact .refl ..
  exclusive := core.exclusive

/-- A `kfree`. -/
theorem Core.kfree (core : Core k ncpus sys) (here : gd < ncpus) (member : a ∈ sys.accounts) (idle : sys.Idle a)
    (small : a.block.len < 2 ^ 31) {intr : Bool}
    (call : Stats.kfree k gd intr a.type a.cpu a.block.ptr sys = .ok sys') :
    Core k ncpus sys' ∧ sys'.callers = sys.callers ∧
      (∀ a', a' ∈ sys'.accounts ↔ a' ∈ sys.accounts ∧ a' ≠ a) ∧
      ∀ a' ∈ sys'.accounts, Keeps (sys.cpu a'.cpu) (sys'.cpu a'.cpu) a'.block := by
  have live := core.live_of member
  have use := core.use a.cpu
  unfold Stats.kfree at call
  split at call
  · cases call
  rename_i s freed
  rw [if_neg (use.live_ptr live).2] at call
  have found : blockSize k a.block.ptr (sys.cpu a.cpu) = a.block.len := (blockSize_eq_iff use live).mpr small
  rw [chargedCpu_eq, found] at call
  have takes := use.kfree_takesBack live freed
  have kept : Use (on k a.cpu) s := by
    obtain ⟨s', same, kept⟩ | ⟨-, fails⟩ := use.kfree live gd intr fun _ => small
    · obtain rfl := Except.ok.inj (same.symm.trans freed)
      exact kept
    · cases fails.symm.trans freed
  have core₁ := core.takeBack here member idle kept takes
  extract_lets size big sys₁ at call
  have accounts : ∀ a', a' ∈ sys₁.accounts ↔ a' ∈ sys.accounts ∧ a' ≠ a := by
    intro a'
    show a' ∈ sys.accounts.filter _ ↔ _
    simp only [List.mem_filter, decide_eq_true_eq]
    refine and_congr_right fun old => not_congr ⟨fun same => core.unique old member same, ?_⟩
    rintro rfl
    exact ⟨rfl, rfl⟩
  have keeps : ∀ a' ∈ sys₁.accounts, Keeps (sys.cpu a'.cpu) (sys₁.cpu a'.cpu) a'.block := by
    intro a' stays
    obtain ⟨old, other⟩ := (accounts a').mp stays
    refine withCpu_forall (fun c s => a'.cpu = c → Keeps (sys.cpu a'.cpu) s a'.block) ?_ ?_ a'.cpu rfl
    · intro same
      rw [same]
      have live' := core.live_of old
      rw [same] at live'
      refine ⟨takes.kept _ live' fun block => other ?_, takes.kup _⟩
      exact core.unique old member ⟨same, congrArg Block.ptr block⟩
    · rintro c - same
      rw [same]
      exact .refl ..
  split at call
  · obtain rfl := Except.ok.inj call
    obtain ⟨same, callers⟩ := requeue_books sys₁ a.cpu gd
    rw [callers, same]
    refine ⟨core₁.requeue _ _, rfl, accounts, fun a' stays => ?_⟩
    have second := requeue_keeps sys₁ a.cpu gd a'.cpu a'.block
    exact ⟨second.bytes.trans (keeps a' stays).bytes, fun some => (keeps a' stays).kup (second.kup some)⟩
  · obtain rfl := Except.ok.inj call
    exact ⟨core₁, rfl, accounts, keeps⟩

/-- A block is written to by its one user. -/
theorem Core.write (core : Core k ncpus sys) (member : a ∈ sys.accounts) (idle : sys.Idle a) {ptr : Nat}
    {data : List UInt8} (inside : a.block.Covers ⟨ptr, data.length⟩) :
    Core k ncpus (sys.withCpu a.cpu { sys.cpu a.cpu with mem := (sys.cpu a.cpu).mem.blit ptr data }) := by
  have outside : ∀ x, x < a.block.ptr ∨ a.block.stop ≤ x → (sys.cpu a.cpu).mem.blit ptr data x = (sys.cpu a.cpu).mem x := by
    intro x away
    apply Mem.blit_outside
    unfold Block.Covers Block.stop at *
    simp only at inside
    omega
  refine core.quiet ((core.use a.cpu).write (core.live_of member) outside) rfl ?_ rfl ?_
  · exact core.maps_of_covered fun b member => ⟨b, member, Nat.le_refl _, Nat.le_refl _⟩
  · intro caller waits r resize same
    have held := ((core.callers caller waits).moving r resize).1.held
    have apart := core.apart member held (Ne.symm (idle caller waits r resize)) same.symm
    exact ⟨agree_of_apart apart outside, id⟩

end Stats

end Dragonfly.Kern.Slab
