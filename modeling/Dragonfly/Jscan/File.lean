import Dragonfly.Jscan.Record

/-!
# Reading a journal file

The reader of `jscan`: `jread` finds the next or the previous record, `jseek` the record of a
transaction id.  The input is one seekable descriptor or the files of a prefix set; it does not
change while it is read.

The backwards loop of `jread` tests the stream id in a local header that it never fills in.
What that variable happens to hold is the argument `stale`.
-/

namespace Dragonfly.Jscan

/-- `enum jdirection` -/
inductive Direction where
  | forwards
  | backwards
  | seqfirst
  | seqlast
  deriving DecidableEq

/-- One open descriptor, or the files of a prefix set by sequence number. -/
inductive Source where
  | descriptor (contents : List UInt8)
  | prefixSet (files : Nat → Option (List UInt8))

namespace Source

/-- `jf_prefix != NULL` -/
def isPrefix : Source → Bool
  | descriptor _ => false
  | prefixSet _ => true

/-- What is read from the file of a sequence number; a missing file cannot be opened. -/
def file : Source → Nat → Option (List UInt8)
  | descriptor contents, _ => some contents
  | prefixSet files, seq => files seq

end Source

/-- `struct jfile`, the reading side.  A closed descriptor has no contents. -/
structure Jfile where
  source : Source
  fd : Option (List UInt8)
  pos : Int
  seqBeg : Nat
  seqEnd : Nat
  seq : Nat

/-- `struct jdata` -/
structure Jdata where
  transid : Int
  alloc : Nat
  size : Nat
  seq : Nat
  pos : Int
  data : List UInt8
  deriving DecidableEq

/-- `verbose_opt` and `JMODEF_LOOP_FOREVER` -/
structure Modes where
  verbose : Nat
  loopForever : Bool

/-- `jopen_fd` -/
def jopenFd (contents : List UInt8) : Jfile where
  source := .descriptor contents
  fd := some contents
  pos := 0
  seqBeg := 0
  seqEnd := 0
  seq := 0

/-- What a call that reads records comes back with.  It may also wait for somebody to write
more, or stop at a failed assertion or a `NULL` record. -/
inductive Reply where
  | record (jd : Jdata) (jf : Jfile)
  | null (jf : Jfile)
  | sleeps
  | fault
  | more

/-! ## Reading bytes -/

/-- `jreadbuf`: the bytes read, and the file afterwards. -/
def jreadbuf (jf : Jfile) (direction : Direction) (bytes : Nat) : List UInt8 × Jfile :=
  match jf.fd with
  | none => ([], jf)
  | some contents =>
      if direction = .forwards then
        let buffer := (contents.drop jf.pos.toNat).take bytes
        (buffer, { jf with pos := jf.pos + buffer.length })
      else if (bytes : Int) ≤ jf.pos then
        let pos := jf.pos - bytes
        ((contents.drop pos.toNat).take bytes, { jf with pos := pos })
      else ([], jf)

/-- `jalign` -/
def jalign (jf : Jfile) (direction : Direction) : Jfile :=
  if jf.pos % 16 ≠ 0 then
    if direction = .forwards then (jreadbuf jf direction (16 - jf.pos % 16).toNat).2
    else { jf with pos := jf.pos - jf.pos % 16 }
  else jf

/-- `allocsize` for a record -/
def allocSize (recsize : Nat) : Nat := (32 + recsize + 255) / 256 * 256

/-- One pass of a scanning loop: it returns a record, goes on, or ends with what the read of
the header returned. -/
inductive Pass where
  | found (jd : Jdata) (jf : Jfile)
  | again (jf : Jfile)
  | ended (error : Nat) (jf : Jfile)

/-- The body of the forwards loop of `jread`. -/
def forwardPass (jf : Jfile) : Pass :=
  let (head, jf) := jreadbuf jf .forwards sizeofRawrecbeg
  if head.length ≠ sizeofRawrecbeg then .ended head.length jf
  else if begmagic head ≠ begMagic then .again (jalign jf .forwards)
  else
    let size := alignSize (recsize head)
    if size < minRecSize ∨ maxRecSize < size then .again (jalign jf .forwards)
    else
      let (rest, jf) := jreadbuf jf .forwards (size.toNat - sizeofRawrecbeg)
      let data := head ++ rest
      if rest.length ≠ size.toNat - sizeofRawrecbeg then .again (jalign jf .forwards)
      else if endmagic (data.drop (size.toNat - sizeofRawrecend)) ≠ endMagic then
        .again (jalign jf .forwards)
      else if streamid head = streamidPad then .again jf
      else
        let jd : Jdata := {
          transid := transid head
          alloc := allocSize size.toNat
          size := size.toNat
          seq := jf.seq
          pos := jf.pos - size
          data := data }
        .found jd jf

/-- The body of the backwards loop of `jread`. -/
def backwardPass (stale : Nat) (jf : Jfile) : Pass :=
  let (tail, jf) := jreadbuf jf .backwards sizeofRawrecend
  if tail.length ≠ sizeofRawrecend then .ended tail.length jf
  else if endmagic tail ≠ endMagic then .again (jalign jf .backwards)
  else
    let size := alignSize (recsize tail)
    if size < minRecSize ∨ maxRecSize < size then .again (jalign jf .backwards)
    else
      let (rest, jf) := jreadbuf jf .backwards (size.toNat - sizeofRawrecend)
      let data := rest ++ tail
      if rest.length ≠ size.toNat - sizeofRawrecend then .again (jalign jf .backwards)
      else if begmagic data ≠ begMagic then .again (jalign jf .backwards)
      -- `head.streamid`, not `headp->streamid`
      else if stale = streamidPad then .again jf
      else
        let jd : Jdata := {
          transid := transid data
          alloc := allocSize size.toNat
          size := size.toNat
          seq := jf.seq
          pos := jf.pos
          data := data }
        .found jd jf

/-! ## Finding a record -/

/-- The label `top` of `jread`: open the file of the sequence number if none is open, and align
the position. -/
def top (jf : Jfile) (direction : Direction) : Jfile :=
  let jf :=
    match jf.fd with
    | some _ => jf
    | none =>
        match jf.source.file jf.seq with
        | some contents =>
            { jf with fd := some contents, pos := if direction = .forwards then 0 else contents.length }
        -- `lseek` on a descriptor that could not be opened
        | none => { jf with pos := -1 }
  if jf.pos % 16 ≠ 0 then jalign jf direction else jf

/-- Where `jread` goes at the end of a file. -/
inductive Roll where
  | goto (jf : Jfile)
  | null (jf : Jfile)
  | sleeps

/-- The end of a file: the next file of the set, or no more records. -/
def roll (modes : Modes) (direction : Direction) (error : Nat) (jf : Jfile) : Roll :=
  if error = 0 ∧ jf.source.isPrefix then
    if direction = .forwards then
      if jf.seq < jf.seqEnd then .goto { jf with seq := jf.seq + 1, fd := none }
      else if modes.loopForever then
        if (jf.source.file (jf.seq + 1)).isSome then .goto { jf with seqEnd := jf.seqEnd + 1 }
        else .sleeps
      else .null jf
    else if jf.seqBeg < jf.seq then .goto { jf with seq := jf.seq - 1, fd := none }
    else .null jf
  else if error = 0 ∧ modes.loopForever ∧ direction = .forwards then .sleeps
  else .null jf

/-- The loops of `jread`. -/
def scan (modes : Modes) (stale : Nat) (direction : Direction) : Nat → Jfile → Reply
  | 0, _ => .more
  | fuel + 1, jf =>
      match if direction = .forwards then forwardPass jf else backwardPass stale jf with
      | .found jd jf => .record jd jf
      | .again jf => scan modes stale direction fuel jf
      | .ended error jf =>
          match roll modes direction error jf with
          | .goto jf => scan modes stale direction fuel (top jf direction)
          | .null jf => .null jf
          | .sleeps => .sleeps

/-- The file of a record is opened unless it is the one that is open. -/
def reopen (jf : Jfile) (seq : Nat) : Jfile :=
  if jf.source.isPrefix then
    let fd := if jf.fd.isSome ∧ jf.seq ≠ seq then none else jf.fd
    { jf with seq := seq, fd := if fd.isNone then jf.source.file seq else fd }
  else jf

/-- `jread` behind or in front of a record. -/
def jreadFrom (modes : Modes) (stale fuel : Nat) (jf : Jfile) (jd : Jdata) (direction : Direction) :
    Reply :=
  if direction = .seqfirst ∨ direction = .seqlast then .fault
  else
    let jf := { reopen jf jd.seq with pos := if direction = .forwards then jd.pos + jd.size else jd.pos }
    scan modes stale direction fuel (top jf direction)

/-- `jread` without a record: the first or the last one. -/
def jreadEnd (modes : Modes) (stale fuel : Nat) (jf : Jfile) (direction : Direction) : Reply :=
  let scanned := if direction = .forwards ∨ direction = .seqfirst then Direction.forwards else .backwards
  let jf :=
    if jf.source.isPrefix then
      { jf with
        fd := none
        seq := match direction with
          | .forwards => jf.seqBeg
          | .backwards => jf.seqEnd
          | .seqfirst => jf.seq
          | .seqlast => jf.seq }
    else
      { jf with pos := if scanned = .forwards then 0 else ((jf.fd.getD []).length : Int) }
  scan modes stale scanned fuel (top jf scanned)

/-- `jread` -/
def jread (modes : Modes) (stale fuel : Nat) (jf : Jfile) (jd : Option Jdata)
    (direction : Direction) : Reply :=
  match jd with
  | some jd => jreadFrom modes stale fuel jf jd direction
  | none => jreadEnd modes stale fuel jf direction

/-! ## Looking for a transaction id -/

/-- `seq - 1` in an `unsigned int` -/
def seqPred (seq : Nat) : Nat := (seq + 4294967295) % 4294967296

/-- The first loop of `jseek` ends with an answer, without a file, or in the file that is most
likely to have the record. -/
inductive Located where
  | answer (reply : Reply)
  | below (jf : Jfile)
  | inFile (jf : Jfile)

/-- The first loop of `jseek`: the first record of each file, from the newest file to the
oldest. -/
def seekFile (modes : Modes) (fuel : Nat) (requested : Int) : Nat → Jfile → Nat → Located
  | 0, _, _ => .answer .more
  | times + 1, jf, seq =>
      if seq = seqPred jf.seqBeg then .below jf
      else
        match jread modes 0 fuel { jf with seq := seq } none .seqfirst with
        | .record jd jf =>
            if jd.transid = requested then .answer (.record jd jf)
            else if jd.transid < requested then .inFile jf
            else seekFile modes fuel requested times jf (seqPred seq)
        | .null jf => seekFile modes fuel requested times jf (seqPred seq)
        | other => .answer other

/-- The end of `jseek`: every record there is has a larger transaction id. -/
def seekNone (modes : Modes) (fuel : Nat) (jf : Jfile) (direction : Direction) : Reply :=
  if direction = .backwards then .null jf else jread modes 0 fuel jf none .forwards

/-- The return of the second loop of `jseek`: a record in front of the request is stepped over
when the reader goes forwards. -/
def seekHit (modes : Modes) (fuel : Nat) (requested : Int) (direction : Direction) (jd : Jdata)
    (jf : Jfile) : Reply :=
  if jd.transid < requested ∧ direction = .forwards then
    match jread modes 0 fuel jf (some jd) .forwards with
    -- `jd->jd_seq` is printed
    | .null jf => if 1 < modes.verbose then .fault else .null jf
    | other => other
  else .record jd jf

/-- The second loop of `jseek`, with the reply of the `call`-th backwards read. -/
def seekBack (modes : Modes) (stale : Nat → Nat) (fuel : Nat) (requested : Int)
    (direction : Direction) : Nat → Nat → Reply → Reply
  | 0, _, _ => .more
  | times + 1, call, .record jd jf =>
      if jd.transid ≤ requested then seekHit modes fuel requested direction jd jf
      else
        seekBack modes stale fuel requested direction times (call + 1)
          (jread modes (stale (call + 1)) fuel jf (some jd) .backwards)
  | _ + 1, _, .null jf => seekNone modes fuel jf direction
  | _ + 1, _, other => other

/-- `jseek`.  Its `call`-th backwards read finds `stale call` in the variable that is not filled
in. -/
def jseek (modes : Modes) (stale : Nat → Nat) (fuel : Nat) (jf : Jfile) (requested : Int)
    (direction : Direction) : Reply :=
  let walk := fun jf => seekBack modes stale fuel requested direction fuel 0
    (jread modes (stale 0) fuel jf none .seqlast)
  if jf.source.isPrefix then
    match seekFile modes fuel requested fuel jf jf.seqEnd with
    | .answer reply => reply
    | .below jf => seekNone modes fuel jf direction
    | .inFile jf => walk jf
  else walk jf

end Dragonfly.Jscan
