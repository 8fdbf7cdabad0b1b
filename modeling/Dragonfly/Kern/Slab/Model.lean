import Mathlib.Data.List.Basic
import Mathlib.Logic.Function.Basic
import Dragonfly.Lib.Bytes
import Dragonfly.Lib.Run

/-!
# The kernel slab allocator

`kern_slaballoc.c`: memory is cut into zones of `ZoneSize` bytes, each zone into
chunks of one size.  `kmalloc` takes a chunk from a zone, `kfree` gives it back to
the zone's list, and a zone that became free goes to `FreeZones`.  The zones here
are those of one cpu; other cpus link the chunks they free on `z_RChunks`.

Zone headers are records, keyed by the address of the zone, and the `z_Next` links
are lists of addresses.  Everything above the header of a zone is bytes: the link
fields of free chunks are read from memory and written to it.  The statistics of
malloc types and the `SLAB_DEBUG` sources are left out.
-/

namespace Dragonfly.Kern.Slab

open Lib

def pageSize : Nat := 4096
def zallocZoneLimit : Nat := 16 * 1024
def zallocMinZoneSize : Nat := 32 * 1024
def zallocMaxZoneSize : Nat := 128 * 1024
def zallocSlabMagic : Int := 0x736c6162
def zallocOvszMagic : Int := 0x736c6163
def zallocSlabSlide : Nat := 20
def nzones : Int := 72
def minChunkSize : Nat := 8
def zeroLengthPtr : Nat := 2 ^ 64 - 8
/-- `sizeof(weirdary)` -/
def maxCopy : Nat := 64

/-- How a call can end without returning. -/
inductive Stop where
  /-- `panic("slaballoc: corrupted zone")` -/
  | corruptedZone
  /-- `panic("Unexpected byte count %d")` -/
  | unexpectedByteCount
  /-- a `KKASSERT` or `KASSERT` -/
  | assertion
  /-- `panic("BADFREE")`, `panic("BADFREE2")`, `panic("trying to free NULL pointer")` -/
  | badFree
  /-- a zone header is read where there is none -/
  | wildPointer
  /-- a list of chunks does not end -/
  | endless
  deriving DecidableEq, Repr

/-- The build, the machine and the cpu. -/
structure Kernel where
  /-- physical memory or kernel address space, in KB -/
  usesize : Nat
  /-- `INVARIANTS` -/
  invariants : Bool
  /-- `SLAB_DEBUG` -/
  slabDebug : Bool
  cpuid : Nat
  kvaStart : Nat
  kvaEnd : Nat
  /-- The last page is not the kernel's, NULL is not, and page counts fit an `int`. -/
  kva : 0 < kvaStart ∧ kvaEnd ≤ 2 ^ 64 - 4096 ∧ kvaEnd - kvaStart < 2 ^ 43

/-- `(n + (a - 1)) & ~(a - 1)` for a power of two `a`. -/
def roundUp (n a : Nat) : Nat := (n + (a - 1)) / a * a

/-- `round_page`, in 64 bits. -/
def roundPage (n : Nat) : Nat := (n + (pageSize - 1)) % 2 ^ 64 / pageSize * pageSize

/-- The value of an `int` that was assigned `n`. -/
def int32 (n : Nat) : Int := if n % 2 ^ 32 < 2 ^ 31 then n % 2 ^ 32 else (n % 2 ^ 32 : Int) - 2 ^ 32

/-- The loop of `kmeminit` over `ZoneSize`, with a bound on its rounds. -/
def growZoneSize (usesize : Nat) : Nat → Nat → Nat
  | 0, zoneSize => zoneSize
  | rounds + 1, zoneSize =>
      if zoneSize < zallocMaxZoneSize ∧ zoneSize * 2 < usesize then growZoneSize usesize rounds (zoneSize * 2)
      else zoneSize

namespace Kernel

variable (k : Kernel)

/-- `ZoneSize` -/
def zoneSize : Nat := growZoneSize k.usesize 2 zallocMinZoneSize

/-- `ZoneLimit` -/
def zoneLimit : Nat := if k.zoneSize / 4 > zallocZoneLimit then zallocZoneLimit else k.zoneSize / 4

/-- `sizeof(SLZone)` -/
def sizeofSLZone : Nat := 96 + if k.slabDebug then 1024 else 0

/-- The size of the zone header with its bitmap. -/
def headerSize (size : Nat) : Nat :=
  k.sizeofSLZone + if k.invariants then 4 * ((k.zoneSize / size + 31) / 32) else 0

/-- Where the chunks of a zone begin: aligned to the chunk size when that is a power of two. -/
def zoneOffset (size : Nat) : Nat :=
  if (size ||| (size - 1)) + 1 = size <<< 1 then roundUp (k.headerSize size) size
  else roundUp (k.headerSize size) minChunkSize

/-- Requests that go to `kmem_slab_alloc` directly. -/
def oversized (size : Nat) : Bool :=
  size ≥ k.zoneLimit || (size % pageSize == 0 && size > pageSize * 2)

end Kernel

/-- The chunk size and the zone index for a request. -/
def zoneindex (bytes : Nat) : Except Stop (Nat × Int) :=
  let n := bytes % 2 ^ 32
  if n < 128 then .ok (roundUp n 8, (roundUp n 8 / 8 : Nat) - 1)
  else if n < 256 then .ok (roundUp n 16, (roundUp n 16 / 16 : Nat) + 7)
  else if n < 512 then .ok (roundUp n 32, (roundUp n 32 / 32 : Nat) + 15)
  else if n < 1024 then .ok (roundUp n 64, (roundUp n 64 / 64 : Nat) + 23)
  else if n < 2048 then .ok (roundUp n 128, (roundUp n 128 / 128 : Nat) + 31)
  else if n < 4096 then .ok (roundUp n 256, (roundUp n 256 / 256 : Nat) + 39)
  else if n < 8192 then .ok (roundUp n 512, (roundUp n 512 / 512 : Nat) + 47)
  else if n < 16384 then .ok (roundUp n 1024, (roundUp n 1024 / 1024 : Nat) + 55)
  else .error .unexpectedByteCount

/-- The `M_ZERO`, `M_PASSIVE_ZERO` and `M_RNOWAIT` flags of a request. -/
structure Flags where
  zero : Bool
  passiveZero : Bool
  rnowait : Bool
  deriving DecidableEq, Repr

/-- `flags &= ~M_ZERO; flags |= M_PASSIVE_ZERO` -/
def Flags.passive (flags : Flags) : Flags := { flags with zero := false, passiveZero := true }

/-- `SLZone` -/
structure SLZone where
  magic : Int
  cpu : Nat
  nfree : Int
  nmax : Nat
  basePtr : Nat
  uIndex : Nat
  uEndIndex : Nat
  chunkSize : Nat
  zoneIndex : Int
  /-- `SLZF_UNOTZEROD` -/
  unotzerod : Bool
  lChunks : Nat
  /-- `z_LChunksp`: the link field of this chunk, or `z_LChunks` itself -/
  lChunksp : Option Nat
  rChunks : Nat
  rSignal : Nat
  rCount : Int
  bitmap : Nat → Bool

/-- The link field `c_Next` of a free chunk. -/
@[irreducible]
def cNext (mem : Mem) (chunk : Nat) : Nat := mem.peek chunk 8

namespace SLZone

variable (k : Kernel) (z : Nat) (h : SLZone)

/-- The address of a chunk. -/
def chunkAt (i : Nat) : Nat := h.basePtr + i * h.chunkSize

/-- The bit that stands for a chunk. -/
def bitdex (chunk : Nat) : Int := ((chunk : Int) - h.basePtr).tdiv h.chunkSize

/-- `chunk_mark_allocated` -/
def markAllocated (chunk : Nat) : Except Stop SLZone :=
  if k.invariants then
    if chunk / k.zoneSize ≠ z / k.zoneSize then .error .assertion
    else if ¬(0 ≤ h.bitdex chunk ∧ h.bitdex chunk < h.nmax) then .error .assertion
    else if h.bitmap (h.bitdex chunk).toNat then .error .assertion
    else .ok { h with bitmap := Function.update h.bitmap (h.bitdex chunk).toNat true }
  else .ok h

/-- `chunk_mark_free` -/
def markFree (chunk : Nat) : Except Stop SLZone :=
  if k.invariants then
    if chunk / k.zoneSize ≠ z / k.zoneSize then .error .assertion
    else if ¬(0 ≤ h.bitdex chunk ∧ h.bitdex chunk < h.nmax) then .error .assertion
    else if ¬h.bitmap (h.bitdex chunk).toNat then .error .assertion
    else .ok { h with bitmap := Function.update h.bitmap (h.bitdex chunk).toNat false }
  else .ok h

/-- `*z->z_LChunksp = bchunk` -/
def storeTail (mem : Mem) (bchunk : Nat) : SLZone × Mem :=
  match h.lChunksp with
  | none => ({ h with lChunks := bchunk }, mem)
  | some chunk => (h, mem.poke chunk 8 bchunk)

/-- The loop over the chunks taken from `z_RChunks`, with a bound on its rounds. -/
def walk (mem : Mem) : Nat → Nat → SLZone → Except Stop SLZone
  | rounds, bchunk, h =>
      if bchunk = 0 then .ok h
      else
        match rounds with
        | 0 => .error .endless
        | rounds + 1 =>
            match h.markFree k z bchunk with
            | .error stop => .error stop
            | .ok h => walk mem rounds (cNext mem bchunk) { h with lChunksp := some bchunk, nfree := h.nfree + 1 }

/-- Append what is on `z_RChunks` to `z_LChunks`.  A zone has at most `z_NMax` chunks. -/
def drain (mem : Mem) : Except Stop (SLZone × Mem) :=
  if h.rChunks = 0 then .ok (h, mem)
  else
    let bchunk := h.rChunks
    let (h, mem) := storeTail { h with rChunks := 0 } mem bchunk
    match walk k z mem h.nmax bchunk h with
    | .error stop => .error stop
    | .ok h => .ok (h, mem)

/-- Take a chunk off `z_LChunks`, or the next one that was never used. -/
def takeChunk (mem : Mem) (size : Nat) (flags : Flags) : Except Stop (Nat × Flags × SLZone) :=
  if h.lChunks ≠ 0 then
    let chunk := h.lChunks
    match h.markAllocated k z chunk with
    | .error stop => .error stop
    | .ok h =>
        .ok (chunk, flags,
          { h with
            lChunks := cNext mem chunk
            lChunksp := if cNext mem chunk = 0 then none else h.lChunksp })
  else
    let uIndex := if h.uIndex + 1 ≠ h.nmax then h.uIndex + 1 else 0
    if uIndex = h.uEndIndex then .error .corruptedZone
    else
      let chunk := h.basePtr + uIndex * size
      match markAllocated k z { h with uIndex } chunk with
      | .error stop => .error stop
      | .ok h => .ok (chunk, if h.unotzerod then flags else flags.passive, h)

end SLZone

/-- A piece of memory: of the kernel map, or handed out. -/
structure Block where
  ptr : Nat
  len : Nat
  deriving DecidableEq, Repr

namespace Block

/-- One past the last byte. -/
def stop (b : Block) : Nat := b.ptr + b.len

/-- No byte in common. -/
def Apart (a b : Block) : Prop := a.stop ≤ b.ptr ∨ b.stop ≤ a.ptr

/-- All bytes of `b` are bytes of `a`. -/
def Covers (a b : Block) : Prop := a.ptr ≤ b.ptr ∧ b.stop ≤ a.stop

end Block

/-- An oversized block on `FreeOvZones`. -/
structure OvZone where
  addr : Nat
  magic : Int
  chunkSize : Int

/-- A `kmalloc` call for `bytes` bytes that is inside `kmem_slab_alloc`. -/
inductive Request where
  /-- for `size` bytes -/
  | oversized (bytes size : Nat) (flags : Flags)
  /-- for a zone of chunks of `size` bytes -/
  | zone (bytes : Nat) (zi : Int) (size : Nat) (flags : Flags)
  deriving DecidableEq, Repr

namespace Request

/-- What the caller asked for. -/
def bytes : Request → Nat
  | .oversized bytes .. => bytes
  | .zone bytes .. => bytes

def flags : Request → Flags
  | .oversized _ _ flags => flags
  | .zone _ _ _ flags => flags

end Request

/-- The slab allocator of one cpu and what it works on. -/
structure State where
  zoneAry : Int → List Nat
  freeZones : List Nat
  freeOvZones : List OvZone
  nFreeZones : Int
  junkIndex : Nat
  /-- The zone headers. -/
  zone : Nat → Option SLZone
  /-- `ku_pagecnt` of every page -/
  kup : Nat → Int
  mem : Mem
  /-- What `kmem_slab_alloc` has handed out. -/
  kernelMap : List Block
  /-- Calls waiting for `kmem_slab_alloc`. -/
  pending : List Request
  /-- `kfree_remote` messages on their way, by zone -/
  messages : List Nat
  zoneRelsThresh : Int
  useMallocPattern : Bool
  /-- The blocks `kmalloc` has returned that were not freed since. -/
  live : List Block

/-- What a `kmalloc` call has come to. -/
inductive Answer where
  | chunk (ptr size : Nat)
  | null
  /-- `ZERO_LENGTH_PTR` -/
  | empty
  /-- inside `kmem_slab_alloc` -/
  | asleep
  deriving DecidableEq, Repr

section Kmalloc

variable (k : Kernel)

/-- The end of `kmalloc`: clear the chunk, or fill it with a pattern, and return it. -/
def done (flags : Flags) (chunk size : Nat) (s : State) : Answer × State :=
  let mem :=
    if flags.zero then s.mem.blit chunk (List.replicate size 0)
    else if k.invariants && !flags.passiveZero then
      let mem := if s.useMallocPattern then s.mem.blit chunk (List.replicate size 255) else s.mem
      mem.poke chunk 8 (2 ^ 64 - 1)
    else s.mem
  (.chunk chunk size, { s with mem, live := ⟨chunk, size⟩ :: s.live })

/-- The last free chunk of the first zone of the list is taken. -/
def lastChunk (zi : Int) (z : Nat) (h : SLZone) (s : State) : Except Stop (SLZone × State) :=
  if h.nfree ≠ 0 then .error .assertion
  else
    let h := if h.rChunks = 0 then { h with rSignal := 1 } else h
    match h.drain k z s.mem with
    | .error stop => .error stop
    | .ok (h, mem) =>
        if h.nfree = 0 then
          .ok (h, { s with mem, zoneAry := Function.update s.zoneAry zi (s.zoneAry zi).tail })
        else .ok ({ h with rSignal := 0 }, { s with mem })

/-- Allocate out of the first zone of the list. -/
def fromZone (zi : Int) (z : Nat) (h : SLZone) (size : Nat) (flags : Flags) (s : State) :
    Except Stop (Answer × State) :=
  let h := { h with nfree := h.nfree - 1 }
  match if h.nfree ≤ 0 then lastChunk k zi z h s else .ok (h, s) with
  | .error stop => .error stop
  | .ok (h, s) =>
      match h.takeChunk k z s.mem size flags with
      | .error stop => .error stop
      | .ok (chunk, flags, h) =>
          .ok (done k flags chunk size { s with zone := Function.update s.zone z (some h) })

/-- Lay out a zone for chunks of `size` bytes and allocate its first chunk. -/
def makeZone (zi : Int) (size : Nat) (flags : Flags) (z : Nat) (unotzerod : Bool) (s : State) : Answer × State :=
  let off := k.zoneOffset size
  let nmax := (k.zoneSize - off) / size
  let uIndex := s.junkIndex % nmax
  let chunk := z + off + uIndex * size
  let h : SLZone :=
    { magic := zallocSlabMagic
      cpu := k.cpuid
      nfree := (nmax : Int) - 1
      nmax
      basePtr := z + off
      uIndex
      uEndIndex := uIndex
      chunkSize := size
      zoneIndex := zi
      unotzerod
      lChunks := 0
      lChunksp := none
      rChunks := 0
      rSignal := 0
      rCount := 0
      bitmap := Function.update (fun _ => false) uIndex true }
  done k (if unotzerod then flags else flags.passive) chunk size
    { s with
      zoneAry := Function.update s.zoneAry zi (z :: s.zoneAry zi)
      junkIndex := (s.junkIndex + zallocSlabSlide) % zallocMaxZoneSize
      zone := Function.update s.zone z (some h)
      kup := Function.update s.kup (z / pageSize) (-((k.cpuid : Int) + 1)) }

/-- `kmalloc`, up to its return or to `kmem_slab_alloc`. -/
def kmalloc (size : Nat) (flags : Flags) (s : State) : Except Stop (Answer × State) :=
  if size = 0 then .ok (.empty, s)
  else if k.oversized size then
    .ok (.asleep, { s with pending := s.pending ++ [.oversized size (roundPage size) flags] })
  else
    match zoneindex size with
    | .error stop => .error stop
    | .ok (chunkSize, zi) =>
        if ¬zi < nzones then .error .assertion
        else
          match s.zoneAry zi with
          | z :: _ =>
              match s.zone z with
              | none => .error .wildPointer
              | some h => fromZone k zi z h chunkSize flags s
          | [] =>
              match s.freeZones with
              | z :: rest =>
                  .ok (makeZone k zi chunkSize flags z true
                    { s with freeZones := rest, nFreeZones := s.nFreeZones - 1 })
              | [] => .ok (.asleep, { s with pending := s.pending ++ [.zone size zi chunkSize flags] })

/-- `kmalloc` after `kmem_slab_alloc` has returned NULL or an address. -/
def resume (request : Request) (answer : Option Nat) (s : State) : Answer × State :=
  match answer with
  | none => (.null, s)
  | some addr =>
      match request with
      | .oversized _ size flags =>
          done k flags.passive addr size
            { s with kup := Function.update s.kup (addr / pageSize) (size / pageSize : Nat) }
      | .zone _ zi size flags => makeZone k zi size flags addr false s

/-- One round of the loop over `FreeZones` in `kmalloc`. -/
def releaseZone (s : State) : State :=
  match s.freeZones with
  | [] => s
  | z :: rest =>
      if s.nFreeZones > s.zoneRelsThresh then
        { s with
          freeZones := rest
          nFreeZones := s.nFreeZones - 1
          kup := Function.update s.kup (z / pageSize) 0
          zone := Function.update s.zone z none
          kernelMap := s.kernelMap.erase ⟨z, k.zoneSize⟩ }
      else s

/-- One round of the loop over `FreeOvZones` in `kmalloc`. -/
def releaseOvZone (s : State) : Except Stop State :=
  match s.freeOvZones with
  | [] => .ok s
  | z :: rest =>
      if z.magic ≠ zallocOvszMagic then .error .assertion
      else
        .ok { s with
          freeOvZones := rest
          kernelMap := s.kernelMap.erase ⟨z.addr, (z.chunkSize % 2 ^ 64).toNat⟩ }

end Kmalloc

section Kfree

variable (k : Kernel)

/-- `*kup << PAGE_SHIFT`, an `int` that becomes an `unsigned long`. -/
def kupBytes (kup : Int) : Nat := (int32 (kup.toNat * pageSize) % 2 ^ 64).toNat

/-- What is left of a map entry when the bytes from its start are unmapped. -/
def Block.rest (ptr size : Nat) (b : Block) : List Block :=
  if b.ptr = ptr then if size < b.len then [⟨ptr + size, b.len - size⟩] else [] else [b]

/-- `kmem_slab_free`: when `ptr + size` is past the end of the address space, nothing is unmapped. -/
def kmemSlabFree (ptr size : Nat) (kernelMap : List Block) : List Block :=
  if 2 ^ 64 ≤ ptr + size then kernelMap else kernelMap.flatMap (Block.rest ptr size)

/-- `z_Next` of a zone on a list. -/
def zNext (z : Nat) (zones : List Nat) : Option Nat := (zones.dropWhile (· ≠ z)).tail.head?

/-- Move a zone that has become free to `FreeZones`, unless it is the only one of its list. -/
def retire (z : Nat) (h : SLZone) (s : State) : Except Stop State :=
  let zones := s.zoneAry h.zoneIndex
  if h.nfree = h.nmax ∧ ((zNext z zones).isSome ∨ zones.head? ≠ some z) ∧ h.rCount = 0 then
    if z ∈ zones then
      .ok { s with
        zoneAry := Function.update s.zoneAry h.zoneIndex (zones.erase z)
        zone := Function.update s.zone z (some { h with magic := -1 })
        freeZones := z :: s.freeZones
        nFreeZones := s.nFreeZones + 1
        kup := Function.update s.kup (z / pageSize) 0 }
    else .error .wildPointer
  else .ok { s with zone := Function.update s.zone z (some h) }

/-- The bytes of `weirdary`. -/
def weirdary : List UInt8 := (List.replicate 16 [0xde, 0xc0, 0xad, 0xde]).flatten

/-- `kfree` on the cpu that owns the zone. -/
def kfreeLocal (z : Nat) (h : SLZone) (chunk : Nat) (s : State) : Except Stop State :=
  match h.markFree k z chunk with
  | .error stop => .error stop
  | .ok h =>
      let mem :=
        if k.invariants then s.mem.blit chunk (weirdary.take (min h.chunkSize maxCopy)) else s.mem
      if k.invariants ∧ (chunk < k.kvaStart ∨ k.kvaEnd ≤ chunk) then .error .badFree
      else
        let mem := mem.poke chunk 8 h.lChunks
        let h := { h with lChunks := chunk, lChunksp := if cNext mem chunk = 0 then some chunk else h.lChunksp }
        if k.invariants ∧ cNext mem chunk ≠ 0 ∧ cNext mem chunk < k.kvaStart then .error .badFree
        else
          let s := { s with mem, live := s.live.filter (·.ptr ≠ chunk) }
          if h.nfree = (0 : Int) then
            retire z { h with nfree := h.nfree + 1 }
              { s with zoneAry := Function.update s.zoneAry h.zoneIndex (z :: s.zoneAry h.zoneIndex) }
          else retire z { h with nfree := h.nfree + 1 } s

/-- `kfree` on another cpu: link the chunk on `z_RChunks` and signal when the zone wants it. -/
def kfreeOther (z : Nat) (h : SLZone) (chunk : Nat) (s : State) : State :=
  let rsignal := h.rSignal
  let bchunk := h.rChunks
  let signal := bchunk = 0 ∧ rsignal ≠ 0
  -- RCount is bumped before the chunk is linked and dropped again when no message is sent.
  let h := { h with rCount := if signal then h.rCount + 1 else h.rCount, rChunks := chunk }
  { s with
    mem := s.mem.poke chunk 8 bchunk
    zone := Function.update s.zone z (some h)
    messages := if signal then s.messages ++ [z] else s.messages
    live := s.live.filter (·.ptr ≠ chunk) }

/-- `kfree` on cpu `gd`, from an interrupt or not. -/
def kfree (gd : Nat) (intr : Bool) (ptr : Nat) (s : State) : Except Stop State :=
  if ptr = 0 then .error .badFree
  else if ptr = zeroLengthPtr then .ok s
  else if s.kup (ptr / pageSize) > 0 then
    let size := kupBytes (s.kup (ptr / pageSize))
    if k.invariants ∧ size < maxCopy then .error .assertion
    else
      let s := { s with
        kup := Function.update s.kup (ptr / pageSize) 0
        mem := if k.invariants then s.mem.blit ptr weirdary else s.mem
        live := s.live.filter (·.ptr ≠ ptr) }
      if intr then .ok { s with freeOvZones := ⟨ptr, zallocOvszMagic, int32 size⟩ :: s.freeOvZones }
      else .ok { s with kernelMap := kmemSlabFree ptr size s.kernelMap }
  else
    let z := ptr / k.zoneSize * k.zoneSize
    if ¬s.kup (z / pageSize) < 0 then .error .assertion
    else
      match s.zone z with
      | none => .error .wildPointer
      | some h =>
          if h.magic ≠ zallocSlabMagic then .error .assertion
          else if h.cpu ≠ gd then .ok (kfreeOther z h ptr s)
          else kfreeLocal k z h ptr s

/-- The message handler `kfree_remote`. -/
def kfreeRemote (z : Nat) (s : State) : Except Stop State :=
  if s.kup (z / pageSize) ≠ -((k.cpuid : Int) + 1) then .error .assertion
  else
    match s.zone z with
    | none => .error .wildPointer
    | some h =>
        if ¬h.rCount > 0 then .error .assertion
        else if h.magic ≠ zallocSlabMagic ∨ h.cpu ≠ k.cpuid then .error .assertion
        else
          let nfree := h.nfree
          let h := { h with rCount := h.rCount - 1 }
          let h := if h.rChunks ≠ 0 then { h with rSignal := 0 } else h
          match h.drain k z s.mem with
          | .error stop => .error stop
          | .ok (h, mem) =>
              let s := { s with mem, messages := s.messages.erase z }
              if h.nfree ≠ 0 ∧ nfree = 0 then
                retire z h { s with zoneAry := Function.update s.zoneAry h.zoneIndex (z :: s.zoneAry h.zoneIndex) }
              else retire z h s

end Kfree

/-! ## Runs -/

/-- The events of a run. -/
inductive Label where
  | kmalloc (size : Nat) (flags : Flags) (answer : Answer)
  | resume (request : Request) (addr : Option Nat) (answer : Answer)
  | releaseZone (flags : Flags)
  | releaseOvZone (flags : Flags)
  | kfree (gd : Nat) (intr : Bool) (ptr : Nat)
  | kfreeRemote (z : Nat)
  | write (ptr : Nat) (data : List UInt8)
  | sysctl (zoneRelsThresh : Int) (useMallocPattern : Bool)

/-- `kmem_slab_alloc` finds `size` bytes at `addr` and maps them; `mem` is the memory afterwards. -/
structure Granted (k : Kernel) (s : State) (addr size align : Nat) (zero : Bool) (mem : Mem) : Prop where
  lower : k.kvaStart ≤ addr
  upper : addr + size ≤ k.kvaEnd
  aligned : align ∣ addr
  unused : ∀ b ∈ s.kernelMap, b.Apart ⟨addr, size⟩
  outside : ∀ a, a < addr ∨ addr + size ≤ a → mem a = s.mem a
  zeroed : zero → ∀ a, addr ≤ a → a < addr + size → mem a = 0

/-- What a request asks `kmem_slab_alloc` for: size, alignment and `M_ZERO`. -/
def Request.wants (k : Kernel) : Request → Nat × Nat × Bool
  | .oversized _ size flags => (size, pageSize, flags.zero)
  | .zone .. => (k.zoneSize, k.zoneSize, true)

/-- The steps of the allocator, of its callers and of other cpus.  A call that waits in
`kmem_slab_alloc` lets the others run; the two loops of `kmalloc` that give memory back can
block between two rounds, so that a round is a step. -/
inductive Step (k : Kernel) : State → Label → State → Prop where
  | kmalloc {s s' : State} {size : Nat} {flags : Flags} {answer : Answer}
      -- the limit of a malloc type is at most `KvaSize`
      (below : size ≤ k.kvaEnd - k.kvaStart)
      (call : Slab.kmalloc k size flags s = .ok (answer, s')) :
      Step k s (.kmalloc size flags answer) s'
  | granted {s s' : State} {request : Request} {addr : Nat} {mem : Mem} {answer : Answer}
      (waiting : request ∈ s.pending)
      (grant : Granted k s addr (request.wants k).1 (request.wants k).2.1 (request.wants k).2.2 mem)
      (call : Slab.resume k request (some addr)
        { s with
          mem
          kernelMap := ⟨addr, (request.wants k).1⟩ :: s.kernelMap
          pending := s.pending.erase request } = (answer, s')) :
      Step k s (.resume request (some addr) answer) s'
  | refused {s s' : State} {request : Request} {answer : Answer} (waiting : request ∈ s.pending)
      (call : Slab.resume k request none { s with pending := s.pending.erase request } = (answer, s')) :
      Step k s (.resume request none answer) s'
  | releaseZone {s : State} {flags : Flags} (wait : flags.rnowait = false) :
      Step k s (.releaseZone flags) (Slab.releaseZone k s)
  | releaseOvZone {s s' : State} {flags : Flags} (wait : flags.rnowait = false)
      (call : Slab.releaseOvZone s = .ok s') : Step k s (.releaseOvZone flags) s'
  | kfree {s s' : State} {gd : Nat} {intr : Bool} {b : Block} (held : b ∈ s.live)
      -- `z_ChunkSize` and `FreeOvZones` of an oversized block freed from an interrupt
      (own : intr = true → gd = k.cpuid ∧ b.len < 2 ^ 31)
      (call : Slab.kfree k gd intr b.ptr s = .ok s') : Step k s (.kfree gd intr b.ptr) s'
  | kfreeEmpty {s s' : State} {gd : Nat} {intr : Bool} (call : Slab.kfree k gd intr zeroLengthPtr s = .ok s') :
      Step k s (.kfree gd intr zeroLengthPtr) s'
  | kfreeRemote {s s' : State} {z : Nat} (sent : z ∈ s.messages) (call : Slab.kfreeRemote k z s = .ok s') :
      Step k s (.kfreeRemote z) s'
  | write {s : State} {b : Block} {ptr : Nat} {data : List UInt8} (held : b ∈ s.live)
      (inside : b.Covers ⟨ptr, data.length⟩) :
      Step k s (.write ptr data) { s with mem := s.mem.blit ptr data }
  | sysctl {s : State} (zoneRelsThresh : Int) (useMallocPattern : Bool) :
      Step k s (.sysctl zoneRelsThresh useMallocPattern) { s with zoneRelsThresh, useMallocPattern }

/-- The state after `kmeminit`: no zone yet. -/
def State.init (mem : Mem) (zoneRelsThresh : Int) : State where
  zoneAry _ := []
  freeZones := []
  freeOvZones := []
  nFreeZones := 0
  junkIndex := 0
  zone _ := none
  kup _ := 0
  mem
  kernelMap := []
  pending := []
  messages := []
  zoneRelsThresh
  useMallocPattern := false
  live := []

end Dragonfly.Kern.Slab
