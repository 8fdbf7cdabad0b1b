import Dragonfly.Lib.Run
import Dragonfly.Lib.Span

/-!
# The memory of virtual machines

Memory that the host leaves unused is recorded as a sorted array of segments.  Segments of
virtual machines are cut off from it, and come back to it.
-/

namespace Dragonfly.Vmm.Mem

open Dragonfly.Lib

/-- `NBPDR`, the size of a large page. -/
def nbpdr : Nat := 2097152

/-- `VMM_MEM_MAXSEGS` -/
def vmmMemMaxsegs : Nat := 64

/-- Addition and subtraction of 64-bit values. -/
def add64 (x y : Nat) : Nat := (x + y) % 2 ^ 64

def sub64 (x y : Nat) : Nat := (x + (2 ^ 64 - y)) % 2 ^ 64

/-- `roundup(x, NBPDR)` -/
def roundup (x : Nat) : Nat := add64 x (nbpdr - 1) / nbpdr * nbpdr

/-- `rounddown(x, NBPDR)` -/
def rounddown (x : Nat) : Nat := x / nbpdr * nbpdr

/-- `struct bios_smap`: `memory` if the type is `SMAP_TYPE_MEMORY`. -/
structure Smap where
  base : Nat
  length : Nat
  memory : Bool

/-- The part of an entry that the host uses, with `maxmem` for `ptoa(Maxmem)`. -/
def used (maxmem base : Nat) : Nat := if base < maxmem then sub64 (roundup maxmem) base else 0

/-- What `vmm_mem_steal_memory` takes of an entry with the given rounded base and length. -/
def recordPart (maxmem base length : Nat) : Option Span :=
  if add64 base length ≤ maxmem then none
  else if sub64 length (used maxmem base) = 0 then none
  else some ⟨add64 base (used maxmem base), sub64 length (used maxmem base)⟩

/-- What `vmm_mem_steal_memory` takes of an entry. -/
def record (maxmem : Nat) (smap : Smap) : Option Span :=
  recordPart maxmem (roundup smap.base) (rounddown smap.length)

/-- The loop of `vmm_mem_steal_memory`, where `take` is what is taken of an entry.  It fails
when the array is full. -/
def stealLoop (take : Smap → Option Span) : List Smap → List Span → Option (List Span)
  | [], segs => some segs
  | smap :: rest, segs =>
      if smap.memory = false then stealLoop take rest segs
      else if smap.length = 0 then some segs
      else
        match take smap with
        | none => stealLoop take rest segs
        | some seg =>
            if vmmMemMaxsegs ≤ segs.length + 1 then none
            else stealLoop take rest (segs ++ [seg])

/-- `vmm_mem_steal_memory` -/
def vmmMemStealMemory (maxmem : Nat) (map : List Smap) : Option (List Span) :=
  stealLoop (record maxmem) map []

/-- The loop of `vmm_mem_alloc` -/
def allocLoop : List Span → Nat → Nat × List Span
  | [], _ => (0, [])
  | seg :: rest, size =>
      if size ≤ seg.len then
        (seg.lo, if seg.len - size = 0 then rest else ⟨seg.lo + size, seg.len - size⟩ :: rest)
      else ((allocLoop rest size).1, seg :: (allocLoop rest size).2)

/-- `vmm_mem_alloc`: the address, or zero, and the new segments. -/
def vmmMemAlloc (avail : List Span) (size : Nat) : Option (Nat × List Span) :=
  if size % nbpdr ≠ 0 then none else some (allocLoop avail size)

/-- The segment is put in front of the first one with a greater base. -/
def insertSeg : List Span → Span → List Span
  | [], seg => [seg]
  | first :: rest, seg => if seg.lo < first.lo then seg :: first :: rest else first :: insertSeg rest seg

/-- The first two segments that meet are made one. -/
def coalesce : List Span → Option (List Span)
  | first :: second :: rest =>
      if first.lo + first.len = second.lo then some (⟨first.lo, first.len + second.len⟩ :: rest)
      else (coalesce (second :: rest)).map (first :: ·)
  | _ => none

/-- The loop at `coalesce_some_more` -/
def coalesceSomeMore : Nat → List Span → List Span
  | 0, segs => segs
  | fuel + 1, segs =>
      match coalesce segs with
      | none => segs
      | some fewer => coalesceSomeMore fuel fewer

/-- `vmm_mem_free` -/
def vmmMemFree (avail : List Span) (base length : Nat) : Option (List Span) :=
  if base % nbpdr ≠ 0 ∨ length % nbpdr ≠ 0 then none
  else if vmmMemMaxsegs ≤ avail.length then none
  else some (coalesceSomeMore (avail.length + 1) (insertSeg avail ⟨base, length⟩))

/-- The available segments, and the segments that are held. -/
structure Pool where
  avail : List Span
  live : List Span

inductive Op where
  | alloc (size : Nat)
  | free (seg : Span)

/-- One call.  Only a segment that is held is freed. -/
def step (pool : Pool) (op : Op) : Option Pool :=
  match op with
  | .alloc size =>
      (vmmMemAlloc pool.avail size).map fun (addr, avail) =>
        if addr = 0 then { pool with avail := avail }
        else { avail := avail, live := ⟨addr, size⟩ :: pool.live }
  | .free seg =>
      if seg ∈ pool.live then
        (vmmMemFree pool.avail seg.lo seg.len).map fun avail =>
          { avail := avail, live := pool.live.erase seg }
      else none

end Dragonfly.Vmm.Mem
