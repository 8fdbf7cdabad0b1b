import Dragonfly.Lib.Seq

/-!
# The reassembly queue of a connection

Segments that arrive out of order wait in a queue that is sorted by sequence number.  A new
segment is trimmed by the one in front of it, trims or replaces those behind it, and is joined
with both neighbours.  What is next in order goes to the socket.  A failed assertion ends a
computation.
-/

namespace Dragonfly.Net.Reass

open Dragonfly.Lib.Seq

variable {β : Type}

/-- `struct tseg_qent`, with what is read of its header. -/
structure TsegQent (β : Type) where
  seq : BitVec 32
  fin : Bool
  len : Nat
  m : List β

/-- The states of a connection that receives. -/
inductive TcpState where
  | synReceived
  | established
  | closeWait
  | finWait1
  | closing
  | lastAck
  | finWait2
  | timeWait
deriving DecidableEq

/-- `TCPS_HAVEESTABLISHED` -/
def tcpsHaveestablished (state : TcpState) : Bool := state != .synReceived

/-- `TCPS_HAVERCVDFIN` -/
def tcpsHavercvdfin (state : TcpState) : Bool := state == .timeWait

/-- The part of `struct tcpcb` that is used, the global `tcp_reass_qsize`, and what has been
appended to the socket. -/
structure Tcpcb (β : Type) where
  rcvNxt : BitVec 32
  state : TcpState
  segq : List (TsegQent β)
  qsize : Int
  rcv : List β

/-- The sequence number behind an entry. -/
def TsegQent.stop (q : TsegQent β) : BitVec 32 := q.seq + BitVec.ofNat 32 q.len

/-- The first `i` bytes are dropped. -/
def TsegQent.adj (q : TsegQent β) (i : Nat) : TsegQent β :=
  { q with seq := q.seq + BitVec.ofNat 32 i, len := q.len - i, m := q.m.drop i }

/-- The loop of `tcp_reass` over the succeeding entries, with the end of the new segment. -/
def trimNext (stop : BitVec 32) : List (TsegQent β) → Int → List (TsegQent β) × Int
  | [], qsize => ([], qsize)
  | q :: rest, qsize =>
      if (stop - q.seq).toInt ≤ 0 then (q :: rest, qsize)
      else if (stop - q.seq).toInt < q.len then (q.adj (stop - q.seq).toInt.toNat :: rest, qsize)
      else trimNext stop rest (qsize - 1)

/-- The new entry is joined with the following one if they meet. -/
def joinNext (te : TsegQent β) : List (TsegQent β) → Int → TsegQent β × List (TsegQent β) × Int
  | [], qsize => (te, [], qsize)
  | q :: rest, qsize =>
      if te.stop = q.seq then
        ({ te with len := te.len + q.len, fin := te.fin || q.fin, m := te.m ++ q.m }, rest, qsize - 1)
      else (te, q :: rest, qsize)

/-- The part of `tcp_reass` behind the trimming of the new segment: `front` is the list up to
the preceding entry and `back` is what begins behind the new segment. -/
def place (tp : Tcpcb β) (front back : List (TsegQent β)) (th : TsegQent β) : Tcpcb β :=
  let (back, qsize) := trimNext th.stop back tp.qsize
  let (te, back, qsize) := joinNext th back qsize
  match front.getLast? with
  | none => { tp with segq := te :: back, qsize := qsize }
  | some p =>
      if p.stop = th.seq then
        { tp with
          segq := front.dropLast ++ { p with len := p.len + te.len, m := p.m ++ te.m } :: back
          qsize := qsize - 1 }
      else { tp with segq := front ++ te :: back, qsize := qsize }

/-- The part of `tcp_reass` that queues a segment, with its queue entry allocated. -/
def enqueue (tp : Tcpcb β) (th : TsegQent β) : Tcpcb β :=
  let front := tp.segq.takeWhile fun q => !seqGt q.seq th.seq
  let back := tp.segq.dropWhile fun q => !seqGt q.seq th.seq
  let tp := { tp with qsize := tp.qsize + 1 }
  match front.getLast? with
  | none => place tp front back th
  | some p =>
      if 0 < (p.stop - th.seq).toInt then
        if th.len ≤ (p.stop - th.seq).toInt then { tp with qsize := tp.qsize - 1 }
        else place tp front back (th.adj (p.stop - th.seq).toInt.toNat)
      else place tp front back th

/-- `tcp_reass` from the label `present` on: the result is whether `TH_FIN` is returned. -/
def present (tp : Tcpcb β) : Option (Tcpcb β × Bool) :=
  if tcpsHaveestablished tp.state = false then some (tp, false)
  else
    match tp.segq with
    | [] => some (tp, false)
    | q :: rest =>
        if q.seq = tp.rcvNxt then
          if rest.head?.map TsegQent.seq = some q.stop then none
          else
            some ({ tp with rcvNxt := q.stop, segq := rest, qsize := tp.qsize - 1, rcv := tp.rcv ++ q.m }, q.fin)
        else some (tp, false)

/-- The segment is not queued: the queues are full, or there is no memory. -/
def refused (maxseg : Int) (memory : Bool) (tp : Tcpcb β) (th : TsegQent β) : Bool :=
  (th.seq != tp.rcvNxt && decide (maxseg ≤ tp.qsize + 1)) || !memory

/-- `tcp_reass`, with `tcp_reass_maxseg` and whether there is memory for an entry. -/
def tcpReass (maxseg : Int) (memory : Bool) (tp : Tcpcb β) : Option (TsegQent β) → Option (Tcpcb β × Bool)
  | none => present tp
  | some th => if refused maxseg memory tp th then some (tp, false) else present (enqueue tp th)

/-! ## The path of a segment -/

/-- A segment on its way through `tcp_input`: the header, and the local flag that is tested
later. -/
structure Incoming (β : Type) where
  th : TsegQent β
  thflagsFin : Bool

/-- What is in front of the window is dropped. -/
def trimFront (rcvNxt : BitVec 32) (seg : Incoming β) : Incoming β :=
  let todrop := (rcvNxt - seg.th.seq).toInt
  if 0 < todrop then
    if seg.th.len < todrop ∨ todrop = seg.th.len ∧ seg.thflagsFin = false then
      { th := seg.th.adj seg.th.len, thflagsFin := false }
    else { seg with th := seg.th.adj todrop.toNat }
  else seg

/-- What is behind the window is dropped, with the flag; nothing may be left of the segment. -/
def trimBack (rcvNxt rcvWnd : BitVec 32) (seg : Incoming β) : Option (Incoming β) :=
  let todrop := (seg.th.stop - (rcvNxt + rcvWnd)).toInt
  if 0 < todrop then
    if seg.th.len ≤ todrop ∧ ¬(rcvWnd = 0 ∧ seg.th.seq = rcvNxt) then none
    else
      some
        { th := { seg.th with len := seg.th.len - todrop.toNat, m := seg.th.m.take (seg.th.len - todrop.toNat) }
          thflagsFin := false }
  else some seg

/-- The part of `tcp_input` at `dodata`; the result is whether `TH_FIN` is seen. -/
def dodata (maxseg : Int) (memory : Bool) (tp : Tcpcb β) (seg : Incoming β) : Option (Tcpcb β × Bool) :=
  if (seg.th.len ≠ 0 ∨ seg.thflagsFin = true) ∧ tcpsHavercvdfin tp.state = false then
    if seg.th.seq = tp.rcvNxt ∧ tp.segq.isEmpty ∧ tcpsHaveestablished tp.state = true then
      some ({ tp with rcvNxt := seg.th.stop, rcv := tp.rcv ++ seg.th.m }, seg.th.fin)
    else tcpReass maxseg memory tp (some seg.th)
  else some (tp, false)

/-- The acknowledgement of the connection's SYN: what is queued is passed on, unless the segment
does it.  The flag of `tcp_reass` is not used. -/
def synAcked (tp : Tcpcb β) (seg : Incoming β) : Option (Tcpcb β) :=
  if tp.state = .synReceived then
    if seg.th.len = 0 ∧ seg.thflagsFin = false then (tcpReass 0 true { tp with state := .established } none).map Prod.fst
    else some { tp with state := .established }
  else some tp

/-- The state after a FIN. -/
def finState : TcpState → TcpState
  | .synReceived => .closeWait
  | .established => .closeWait
  | .finWait1 => .closing
  | .finWait2 => .timeWait
  | state => state

/-- The FIN is acknowledged. -/
def receiveFin : Tcpcb β × Bool → Tcpcb β × Bool
  | (tp, false) => (tp, false)
  | (tp, true) =>
      ({ tp with
        rcvNxt := if tcpsHavercvdfin tp.state then tp.rcvNxt else tp.rcvNxt + 1
        state := finState tp.state }, true)

/-- A segment of the stream in `tcp_input`, with the receive window and whether it acknowledges
the connection's SYN. -/
def tcpInput (maxseg : Int) (memory ack : Bool) (rcvWnd : BitVec 32) (tp : Tcpcb β) (th : TsegQent β) :
    Option (Tcpcb β × Bool) :=
  match trimBack tp.rcvNxt rcvWnd (trimFront tp.rcvNxt { th := th, thflagsFin := th.fin }) with
  | none => some (tp, false)
  | some seg =>
      (if ack then synAcked tp seg else some tp).bind fun tp =>
        (dodata maxseg memory tp seg).map receiveFin

end Dragonfly.Net.Reass
