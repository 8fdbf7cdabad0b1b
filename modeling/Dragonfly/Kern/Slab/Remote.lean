import Mathlib.Data.List.Basic
import Mathlib.Logic.Function.Basic
import Dragonfly.Kern.Slab.Model

/-!
# Frees from other cpus, step by step

One zone, the cpu that owns it and other cpus that free chunks of it.  Every access
to `z_RChunks`, `z_RSignal`, `z_RCount` and to a link field is a step, and so are a
compare-and-swap, the sending of a message and its arrival.  What only the owner
touches (`z_NFree`, `z_LChunks`, the window of unused chunks, the `ZoneAry` list) is
read and written together with the owner's next step.  `kmalloc`, `kfree` and the
message handler run in critical sections of the owner, one at a time.
-/

namespace Dragonfly.Kern.Slab.Remote

open Lib

/-- Who drains `z_RChunks`; the handler remembers `z_NFree` from its beginning. -/
inductive Call where
  | kmalloc
  | kfreeRemote (nfree : Int)
  deriving DecidableEq, Repr

/-- Where the owner is. -/
inductive Owner where
  | idle
  /-- `kmalloc`: is `z_RChunks` NULL? -/
  | look
  /-- `kmalloc`: set `z_RSignal` -/
  | signal
  /-- `kfree_remote`: is `z_RChunks` NULL? -/
  | seen (nfree : Int)
  /-- `kfree_remote`: clear `z_RSignal` -/
  | clear (nfree : Int)
  /-- load `z_RChunks` -/
  | fetch (call : Call)
  /-- replace `bchunk` by NULL -/
  | swap (call : Call) (bchunk : Nat)
  /-- store `bchunk` at `z_LChunksp` -/
  | append (call : Call) (bchunk : Nat)
  /-- the loop over the chunks -/
  | walk (call : Call) (bchunk : Nat)
  /-- behind the loop -/
  | drained (call : Call)
  /-- `kmalloc`: take a chunk -/
  | take
  /-- may the zone retire? -/
  | check
  /-- move the zone to `FreeZones` -/
  | retire
  deriving DecidableEq, Repr

/-- Where the `kfree` of another cpu is; `rsignal` and `bchunk` are its variables. -/
inductive Pc where
  /-- load `z_RSignal` -/
  | load
  /-- bump `z_RCount` -/
  | count (rsignal : Bool)
  /-- load `z_RChunks` -/
  | head (rsignal : Bool)
  /-- store the link field of the chunk -/
  | link (rsignal : Bool) (bchunk : Nat)
  /-- replace `bchunk` by the chunk -/
  | push (rsignal : Bool) (bchunk : Nat)
  /-- send the message, or drop `z_RCount` -/
  | tell (rsignal : Bool) (bchunk : Nat)
  deriving DecidableEq, Repr

/-- A `kfree` of another cpu. -/
structure RemoteFree where
  chunk : Nat
  pc : Pc
  deriving DecidableEq, Repr

/-- The zone and everybody who works on it. -/
structure State where
  /-- The chunks of the zone. -/
  chunks : List Nat
  nfree : Int
  lChunks : Nat
  lChunksp : Option Nat
  rChunks : Nat
  rSignal : Bool
  rCount : Int
  cNext : Nat → Nat
  /-- The chunks from `z_UIndex` round to `z_UEndIndex`. -/
  fresh : List Nat
  /-- The zone is on its `ZoneAry` list. -/
  onList : Bool
  /-- The zone is on `FreeZones`. -/
  retired : Bool
  /-- `kfree_remote` messages in flight -/
  messages : Nat
  live : List Nat
  owner : Owner
  remotes : List RemoteFree

/-- A zone has been laid out and its first chunk handed out. -/
def State.begin (s : State) (first : Nat) (others : List Nat) : State :=
  { s with
    chunks := first :: others
    nfree := others.length
    lChunks := 0
    lChunksp := none
    rChunks := 0
    rSignal := false
    rCount := 0
    fresh := others
    onList := true
    retired := false
    live := [first]
    owner := .idle }

/-- `kmalloc` finds the zone at the head of its list. -/
def kmalloc (s : State) : Except Stop State :=
  let nfree := s.nfree - 1
  if nfree ≤ 0 then
    if nfree ≠ 0 then .error .assertion else .ok { s with nfree, owner := .look }
  else .ok { s with nfree, owner := .take }

/-- `kfree` on the owning cpu, up to the test whether the zone may retire. -/
def kfree (chunk : Nat) (s : State) : State :=
  { s with
    live := s.live.erase chunk
    cNext := Function.update s.cNext chunk s.lChunks
    lChunks := chunk
    lChunksp := if s.lChunks = 0 then some chunk else s.lChunksp
    nfree := s.nfree + 1
    onList := if s.nfree = 0 then true else s.onList
    owner := .check }

/-- A message arrives. -/
def deliver (s : State) : State :=
  { s with messages := s.messages - 1, rCount := s.rCount - 1, owner := .seen s.nfree }

/-- The owner's next step; `others` says whether the list has another zone. -/
def ownerStep (others : Bool) (s : State) : Except Stop State :=
  match s.owner with
  | .idle => .ok s
  | .look => .ok { s with owner := if s.rChunks = 0 then .signal else .fetch .kmalloc }
  | .signal => .ok { s with rSignal := true, owner := .fetch .kmalloc }
  | .seen nfree => .ok { s with owner := if s.rChunks ≠ 0 then .clear nfree else .fetch (.kfreeRemote nfree) }
  | .clear nfree => .ok { s with rSignal := false, owner := .fetch (.kfreeRemote nfree) }
  | .fetch call => .ok { s with owner := if s.rChunks ≠ 0 then .swap call s.rChunks else .drained call }
  | .swap call bchunk =>
      if s.rChunks = bchunk then .ok { s with rChunks := 0, owner := .append call bchunk }
      else .ok { s with owner := .fetch call }
  | .append call bchunk =>
      match s.lChunksp with
      | none => .ok { s with lChunks := bchunk, owner := .walk call bchunk }
      | some chunk => .ok { s with cNext := Function.update s.cNext chunk bchunk, owner := .walk call bchunk }
  | .walk call bchunk =>
      if bchunk = 0 then .ok { s with owner := .drained call }
      else .ok { s with lChunksp := some bchunk, nfree := s.nfree + 1, owner := .walk call (s.cNext bchunk) }
  | .drained .kmalloc =>
      if s.nfree = 0 then .ok { s with onList := false, owner := .take }
      else .ok { s with rSignal := false, owner := .take }
  | .drained (.kfreeRemote nfree) =>
      .ok { s with onList := if s.nfree ≠ 0 ∧ nfree = 0 then true else s.onList, owner := .check }
  | .take =>
      if s.lChunks ≠ 0 then
        .ok { s with
          lChunks := s.cNext s.lChunks
          lChunksp := if s.cNext s.lChunks = 0 then none else s.lChunksp
          live := s.lChunks :: s.live
          owner := .idle }
      else
        match s.fresh with
        | [] => .error .corruptedZone
        | chunk :: fresh => .ok { s with fresh, live := chunk :: s.live, owner := .idle }
  | .check =>
      .ok { s with owner := if s.nfree = s.chunks.length ∧ others ∧ s.rCount = 0 then .retire else .idle }
  | .retire => .ok { s with onList := false, retired := true, owner := .idle }

/-- The next step of a `kfree` on another cpu, and where it is then. -/
def remoteStep (r : RemoteFree) (s : State) : State × Option RemoteFree :=
  match r.pc with
  | .load => (s, some { r with pc := .count s.rSignal })
  | .count rsignal =>
      ({ s with rCount := if rsignal then s.rCount + 1 else s.rCount }, some { r with pc := .head rsignal })
  | .head rsignal => (s, some { r with pc := .link rsignal s.rChunks })
  | .link rsignal bchunk =>
      ({ s with cNext := Function.update s.cNext r.chunk bchunk }, some { r with pc := .push rsignal bchunk })
  | .push rsignal bchunk =>
      if s.rChunks = bchunk then ({ s with rChunks := r.chunk }, some { r with pc := .tell rsignal bchunk })
      else (s, some { r with pc := .head rsignal })
  | .tell rsignal bchunk =>
      if bchunk = 0 ∧ rsignal then ({ s with messages := s.messages + 1 }, none)
      else if rsignal then ({ s with rCount := s.rCount - 1 }, none)
      else (s, none)

/-- Who takes a step. -/
inductive Label where
  | kmalloc
  | kfree (chunk : Nat)
  | deliver
  | owner (others : Bool)
  | kfreeOther (chunk : Nat)
  | remote (r : RemoteFree)
  | recycle (first : Nat) (others : List Nat)

/-- Interleavings of the owner and any number of other cpus. -/
inductive Step : State → Label → State → Prop where
  | kmalloc {s s' : State} (idle : s.owner = .idle) (listed : s.onList = true) (call : Remote.kmalloc s = .ok s') :
      Step s .kmalloc s'
  | kfree {s : State} {chunk : Nat} (idle : s.owner = .idle) (held : chunk ∈ s.live) :
      Step s (.kfree chunk) (Remote.kfree chunk s)
  | deliver {s : State} (idle : s.owner = .idle) (sent : 0 < s.messages) : Step s .deliver (Remote.deliver s)
  | owner {s s' : State} {others : Bool} (busy : s.owner ≠ .idle) (call : ownerStep others s = .ok s') :
      Step s (.owner others) s'
  | kfreeOther {s : State} {chunk : Nat} (held : chunk ∈ s.live) :
      Step s (.kfreeOther chunk)
        { s with live := s.live.erase chunk, remotes := ⟨chunk, .load⟩ :: s.remotes }
  | remote {s : State} {front back : List RemoteFree} {r : RemoteFree} (here : s.remotes = front ++ r :: back) :
      Step s (.remote r)
        { (remoteStep r s).1 with remotes := front ++ (remoteStep r s).2.toList ++ back }
  /-- The zone is taken off `FreeZones` and laid out again. -/
  | recycle {s : State} {first : Nat} {others : List Nat} (retired : s.retired = true) (some : others ≠ [])
      (distinct : (first :: others).Nodup) (nonnull : ∀ chunk ∈ first :: others, chunk ≠ 0) :
      Step s (.recycle first others) (s.begin first others)

/-- A new zone; no other cpu has a chunk yet. -/
def State.init (first : Nat) (others : List Nat) (cNext : Nat → Nat) : State :=
  { chunks := []
    nfree := 0
    lChunks := 0
    lChunksp := none
    rChunks := 0
    rSignal := false
    rCount := 0
    cNext
    fresh := []
    onList := false
    retired := false
    messages := 0
    live := []
    owner := .idle
    remotes := [] : State }.begin first others

end Dragonfly.Kern.Slab.Remote
