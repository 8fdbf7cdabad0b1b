import Mathlib.Data.List.Basic
import Mathlib.Logic.Function.Basic
import Dragonfly.Kern.Slab.Model

/-!
# The statistics of malloc types, and `krealloc`

`kern_slaballoc.c` on all cpus.  A malloc type counts on every cpu what was
allocated and what was freed there (`ks_inuse`, `ks_memuse`); only the sums over
the cpus mean anything.  The size of a block is not stored with it: `kfree` and
`krealloc` find it in the page count of an oversized block or in the zone header.

Each cpu has an allocator as in `Model`, and any cpu may free a block of it.  The
answer of the limit check at the head of `kmalloc` is an input; a limit that is
reached without `M_NULLOK` panics.
-/

namespace Dragonfly.Kern.Slab.Stats

open Lib

/-- A live block: the cpu it came from and the malloc type it is charged to. -/
structure Account where
  cpu : Nat
  type : Nat
  block : Block
  deriving DecidableEq, Repr

/-- A `krealloc` that is inside `kmalloc`. -/
structure Resize where
  old : Account
  intr : Bool
  /-- what its caller asked for -/
  bytes : Nat
  /-- what `kmalloc` was asked for -/
  size : Nat
  /-- `osize` of an oversized block; `z_ChunkSize` is read after `kmalloc` -/
  osize : Option Nat
  /-- what the old block held at the call -/
  data : List UInt8

/-- A call that is inside `kmem_slab_alloc`. -/
structure Caller where
  gd : Nat
  type : Nat
  request : Request
  resize : Option Resize

/-- The allocators of the cpus and the statistics, by type and cpu. -/
structure System where
  cpu : Nat → State
  inuse : Nat → Nat → BitVec 64
  memuse : Nat → Nat → BitVec 64
  /-- What was allocated and not freed since. -/
  accounts : List Account
  callers : List Caller

/-- What a call has come to. -/
inductive Outcome where
  | returns (ptr : Nat)
  /-- inside `kmem_slab_alloc` -/
  | asleep
  deriving DecidableEq, Repr

/-- `stat[gd] += n` of a malloc type. -/
def bump (stat : Nat → Nat → BitVec 64) (type gd : Nat) (n : BitVec 64) : Nat → Nat → BitVec 64 :=
  Function.update stat type (Function.update (stat type) gd (stat type gd + n))

/-- `min` of the kernel, on `u_int`. -/
def min32 (a b : Nat) : Nat := min (a % 2 ^ 32) (b % 2 ^ 32)

variable (k : Kernel)

/-- The machine, seen from cpu `gd`. -/
def on (gd : Nat) : Kernel := { k with cpuid := gd }

namespace System

variable (sys : System)

/-- The allocator of a cpu is replaced. -/
def withCpu (gd : Nat) (s : State) : System := { sys with cpu := Function.update sys.cpu gd s }

/-- What a block holds. -/
def held (a : Account) : List UInt8 := (sys.cpu a.cpu).mem.slice a.block.ptr a.block.len

/-- `done` in `kmalloc`: the chunk is charged to the type. -/
def charge (gd type : Nat) (block : Block) : System :=
  { sys with
    inuse := bump sys.inuse type gd 1
    memuse := bump sys.memuse type gd (BitVec.ofNat 64 block.len)
    accounts := ⟨gd, type, block⟩ :: sys.accounts }

/-- `kfree`: `size` bytes are taken back on cpu `gd`. -/
def credit (gd : Nat) (size : Nat) (type cpu ptr : Nat) : System :=
  { sys with
    inuse := bump sys.inuse type gd (-1)
    memuse := bump sys.memuse type gd (-BitVec.ofNat 64 size)
    accounts := sys.accounts.filter fun a => ¬(a.cpu = cpu ∧ a.block.ptr = ptr) }

/-- An oversized block freed by an interrupt is on `FreeOvZones` of the cpu that frees it. -/
def requeue (cpu gd : Nat) : System :=
  match (sys.cpu cpu).freeOvZones with
  | [] => sys
  | o :: rest =>
      let piece : Block := ⟨o.addr, (o.chunkSize % 2 ^ 64).toNat⟩
      let sys := sys.withCpu cpu
        { sys.cpu cpu with freeOvZones := rest, kernelMap := (sys.cpu cpu).kernelMap.erase piece }
      sys.withCpu gd
        { sys.cpu gd with freeOvZones := o :: (sys.cpu gd).freeOvZones, kernelMap := piece :: (sys.cpu gd).kernelMap }

end System

/-- The size of a block as `kfree` and `krealloc` find it. -/
def blockSize (ptr : Nat) (s : State) : Nat :=
  if s.kup (ptr / pageSize) > 0 then kupBytes (s.kup (ptr / pageSize))
  else ((s.zone (ptr / k.zoneSize * k.zoneSize)).map (·.chunkSize)).getD 0

/-- The cpu whose statistics a `kfree` on cpu `gd` changes. -/
def chargedCpu (gd ptr : Nat) (s : State) : Nat :=
  if s.kup (ptr / pageSize) > 0 then gd
  else
    match s.zone (ptr / k.zoneSize * k.zoneSize) with
    | none => gd
    | some h => if h.cpu ≠ gd then gd else h.cpu

/-- `kfree` on cpu `gd`, from an interrupt or not, of a block that came from `cpu`. -/
def kfree (gd : Nat) (intr : Bool) (type cpu ptr : Nat) (sys : System) : Except Stop System :=
  match Slab.kfree (on k cpu) gd intr ptr (sys.cpu cpu) with
  | .error stop => .error stop
  | .ok s =>
      if ptr = zeroLengthPtr then .ok sys
      else
        let size := blockSize k ptr (sys.cpu cpu)
        let big := (sys.cpu cpu).kup (ptr / pageSize) > 0
        let sys := (sys.credit (chargedCpu k gd ptr (sys.cpu cpu)) size type cpu ptr).withCpu cpu s
        .ok (if intr ∧ big then sys.requeue cpu gd else sys)

/-- `krealloc` once it has a new block: copy, and free the old block. -/
def move (gd nptr : Nat) (r : Resize) (sys : System) : Except Stop System :=
  let ptr := r.old.block.ptr
  let z := (sys.cpu r.old.cpu).zone (ptr / k.zoneSize * k.zoneSize)
  match r.osize.or (z.map (·.chunkSize)) with
  | none => .error .wildPointer
  | some osize =>
      let data := (sys.cpu r.old.cpu).mem.slice ptr (min32 r.size osize)
      kfree k gd r.intr r.old.type r.old.cpu ptr
        (sys.withCpu gd { sys.cpu gd with mem := (sys.cpu gd).mem.blit nptr data })

/-- `kmalloc` has come to an answer, for a caller or for `krealloc`. -/
def proceed (gd type : Nat) (resize : Option Resize) (answer : Answer) (s : State) (sys : System) :
    Except Stop (Outcome × System) :=
  let sys := sys.withCpu gd s
  match answer with
  | .null => .ok (.returns 0, sys)
  | .empty => .ok (.returns zeroLengthPtr, sys)
  | .asleep =>
      match s.pending.getLast? with
      | none => .ok (.asleep, sys)
      | some request => .ok (.asleep, { sys with callers := sys.callers ++ [⟨gd, type, request, resize⟩] })
  | .chunk ptr size =>
      let sys := sys.charge gd type ⟨ptr, size⟩
      match resize with
      | none => .ok (.returns ptr, sys)
      | some r =>
          match move k gd ptr r sys with
          | .error stop => .error stop
          | .ok sys => .ok (.returns ptr, sys)

/-- `kmalloc` on cpu `gd`; `limited` when the limit of the type is reached. -/
def kmalloc (gd type size : Nat) (flags : Flags) (limited : Bool) (resize : Option Resize) (sys : System) :
    Except Stop (Outcome × System) :=
  if limited then .ok (.returns 0, sys)
  else
    match Slab.kmalloc (on k gd) size flags (sys.cpu gd) with
    | .error stop => .error stop
    | .ok (answer, s) => proceed k gd type resize answer s sys

/-- `kmalloc` after `kmem_slab_alloc` has returned NULL, or an address with the memory as it is then. -/
def resume (caller : Caller) (grant : Option (Nat × Mem)) (sys : System) : Except Stop (Outcome × System) :=
  let s := sys.cpu caller.gd
  let s := { s with pending := s.pending.erase caller.request }
  let s :=
    match grant with
    | none => s
    | some (addr, mem) => { s with mem, kernelMap := ⟨addr, (caller.request.wants k).1⟩ :: s.kernelMap }
  let (answer, s) := Slab.resume (on k caller.gd) caller.request (grant.map (·.1)) s
  proceed k caller.gd caller.type caller.resize answer s sys

/-- How `krealloc` of a block goes on. -/
inductive Next where
  /-- `return(ptr)` -/
  | keep
  /-- `kfree(ptr, type)` and `return(NULL)` -/
  | kfree
  /-- `kmalloc` of `size` bytes, and for an oversized block `osize` -/
  | kmalloc (size : Nat) (osize : Option Nat)
  deriving DecidableEq, Repr

/-- `krealloc` of a block up to its call of `kmalloc`. -/
def next (ptr size : Nat) (s : State) : Except Stop Next :=
  if size = 0 then .ok .kfree
  else if s.kup (ptr / pageSize) > 0 then
    let osize := kupBytes (s.kup (ptr / pageSize))
    if osize = roundPage size then .ok .keep else .ok (.kmalloc size (some osize))
  else
    let z := ptr / k.zoneSize * k.zoneSize
    if ¬s.kup (z / pageSize) < 0 then .error .assertion
    else
      match s.zone z with
      | none => .error .wildPointer
      | some h =>
          if h.magic ≠ zallocSlabMagic then .error .assertion
          else if size < k.zoneLimit then
            match zoneindex size with
            | .error stop => .error stop
            | .ok (size, _) => if h.chunkSize = size then .ok .keep else .ok (.kmalloc size none)
          else .ok (.kmalloc size none)

/-- `krealloc` on cpu `gd` of `old`, which may stand for NULL or `ZERO_LENGTH_PTR`. -/
def krealloc (gd : Nat) (intr : Bool) (old : Account) (bytes : Nat) (flags : Flags) (limited : Bool) (sys : System) :
    Except Stop (Outcome × System) :=
  let ptr := old.block.ptr
  if flags.zero then .error .assertion
  else if ptr = 0 ∨ ptr = zeroLengthPtr then kmalloc k gd old.type bytes flags limited none sys
  else
    match next k ptr bytes (sys.cpu old.cpu) with
    | .error stop => .error stop
    | .ok .keep => .ok (.returns ptr, sys)
    | .ok .kfree =>
        match kfree k gd intr old.type old.cpu ptr sys with
        | .error stop => .error stop
        | .ok sys => .ok (.returns 0, sys)
    | .ok (.kmalloc size osize) =>
        let data := sys.held old
        kmalloc k gd old.type size flags limited (some { old, intr, bytes, size, osize, data }) sys

/-! ## Runs -/

/-- The events of a run. -/
inductive Label where
  | kmalloc (gd type size : Nat) (flags : Flags) (limited : Bool) (outcome : Outcome)
  | krealloc (gd : Nat) (intr : Bool) (old : Account) (bytes : Nat) (flags : Flags) (limited : Bool) (outcome : Outcome)
  | resume (caller : Caller) (addr : Option Nat) (outcome : Outcome)
  | kfree (gd : Nat) (intr : Bool) (a : Account)
  | write (a : Account) (ptr : Nat) (data : List UInt8)
  /-- what the allocator of a cpu does beside these calls -/
  | other (gd : Nat)

/-- No `krealloc` is copying the block. -/
def System.Idle (sys : System) (a : Account) : Prop :=
  ∀ caller ∈ sys.callers, ∀ r, caller.resize = some r → r.old ≠ a

/-- The steps of the system.  A block is freed, resized or written to by its one user; a call that
waits in `kmem_slab_alloc` lets the others run. -/
inductive Step (ncpus : Nat) : System → Label → System → Prop where
  | kmalloc {sys sys' : System} {gd type size : Nat} {flags : Flags} {limited : Bool} {outcome : Outcome}
      (here : gd < ncpus) (below : size ≤ 2 ^ 40)
      (call : Stats.kmalloc k gd type size flags limited none sys = .ok (outcome, sys')) :
      Step ncpus sys (.kmalloc gd type size flags limited outcome) sys'
  | krealloc {sys sys' : System} {gd : Nat} {intr : Bool} {old : Account} {bytes : Nat} {flags : Flags}
      {limited : Bool} {outcome : Outcome} (here : gd < ncpus) (below : bytes ≤ 2 ^ 40)
      (held : old ∈ sys.accounts ∧ sys.Idle old ∨ old.block.ptr = 0 ∨ old.block.ptr = zeroLengthPtr)
      (call : Stats.krealloc k gd intr old bytes flags limited sys = .ok (outcome, sys')) :
      Step ncpus sys (.krealloc gd intr old bytes flags limited outcome) sys'
  | granted {sys sys' : System} {front back : List Caller} {caller : Caller} {addr : Nat} {mem : Mem}
      {outcome : Outcome} (waiting : sys.callers = front ++ caller :: back)
      (grant : Granted (on k caller.gd) (sys.cpu caller.gd) addr (caller.request.wants k).1
        (caller.request.wants k).2.1 (caller.request.wants k).2.2 mem)
      (unused : ∀ c, ∀ b ∈ (sys.cpu c).kernelMap, b.Apart ⟨addr, (caller.request.wants k).1⟩)
      (call : Stats.resume k caller (some (addr, mem)) { sys with callers := front ++ back } = .ok (outcome, sys')) :
      Step ncpus sys (.resume caller (some addr) outcome) sys'
  | refused {sys sys' : System} {front back : List Caller} {caller : Caller} {outcome : Outcome}
      (waiting : sys.callers = front ++ caller :: back)
      (call : Stats.resume k caller none { sys with callers := front ++ back } = .ok (outcome, sys')) :
      Step ncpus sys (.resume caller none outcome) sys'
  | kfree {sys sys' : System} {gd : Nat} {intr : Bool} {a : Account} (here : gd < ncpus) (held : a ∈ sys.accounts)
      (idle : sys.Idle a) (call : Stats.kfree k gd intr a.type a.cpu a.block.ptr sys = .ok sys') :
      Step ncpus sys (.kfree gd intr a) sys'
  | write {sys : System} {a : Account} {ptr : Nat} {data : List UInt8} (held : a ∈ sys.accounts) (idle : sys.Idle a)
      (inside : a.block.Covers ⟨ptr, data.length⟩) :
      Step ncpus sys (.write a ptr data)
        (sys.withCpu a.cpu { sys.cpu a.cpu with mem := (sys.cpu a.cpu).mem.blit ptr data })
  | releaseZone {sys : System} {gd : Nat} :
      Step ncpus sys (.other gd) (sys.withCpu gd (Slab.releaseZone (on k gd) (sys.cpu gd)))
  | releaseOvZone {sys : System} {gd : Nat} {s : State} (call : Slab.releaseOvZone (sys.cpu gd) = .ok s) :
      Step ncpus sys (.other gd) (sys.withCpu gd s)
  | kfreeRemote {sys : System} {gd z : Nat} {s : State} (sent : z ∈ (sys.cpu gd).messages)
      (call : Slab.kfreeRemote (on k gd) z (sys.cpu gd) = .ok s) : Step ncpus sys (.other gd) (sys.withCpu gd s)
  | sysctl {sys : System} {gd : Nat} (zoneRelsThresh : Int) (useMallocPattern : Bool) :
      Step ncpus sys (.other gd) (sys.withCpu gd { sys.cpu gd with zoneRelsThresh, useMallocPattern })

/-- After `kmeminit` on all cpus. -/
def System.init (mem : Nat → Mem) (zoneRelsThresh : Int) : System where
  cpu gd := State.init (mem gd) zoneRelsThresh
  inuse _ _ := 0
  memuse _ _ := 0
  accounts := []
  callers := []

end Dragonfly.Kern.Slab.Stats
