import Mathlib.Data.List.Basic
import Mathlib.Logic.Function.Basic

/-!
# System V semaphores

The sets of semaphores are slices of one pool, and a process may have a structure with the
adjustments that are made when it exits.  A call of `semop` tries its operations in turn, and
takes them back and sleeps when one of them is not possible.  A panic ends a computation.
-/

namespace Dragonfly.Kern.Sem

/-- The limits in `struct seminfo` that are looked at. -/
structure Seminfo where
  semmni : Nat
  semmns : Nat
  semmnu : Nat
  semmsl : Nat
  semume : Nat

/-- The limits that are compiled in. -/
def seminfo : Seminfo := { semmni := 22, semmns := 341, semmnu := 30, semmsl := 341, semume := 10 }

inductive Errno where
  | EINVAL
  | ENOSPC
  | EEXIST
  | ENOENT
  | E2BIG
  | EFBIG
  | EAGAIN
  | EINTR
  | EIDRM
  | EFAULT
  | EACCES
deriving DecidableEq

abbrev Proc := Nat

/-- `struct sem` -/
structure Semaphore where
  semval : BitVec 16
  sempid : Proc
  semncnt : BitVec 16
  semzcnt : BitVec 16
deriving DecidableEq

/-- `struct sembuf`, with the flags `IPC_NOWAIT` and `SEM_UNDO`. -/
structure Sembuf where
  num : BitVec 16
  op : BitVec 16
  nowait : Bool
  undo : Bool
deriving DecidableEq

/-- The part of `struct semid_ds` that is used; `alloc` is `SEM_ALLOC`, and the base is an index of
the pool. -/
structure SemidDs where
  alloc : Bool
  key : Int
  seq : BitVec 16
  nsems : BitVec 16
  base : Nat

/-- `struct undo` -/
@[ext]
structure Undo where
  adjval : BitVec 16
  num : BitVec 16
  id : Nat
deriving DecidableEq

/-- `struct sem_undo`; `un_cnt` is the length of the entries. -/
structure SemUndo where
  proc : Option Proc
  ent : List Undo

/-- A call of `semop` that sleeps on a set: the operation that was not possible, the semaphore it
has a pointer to, and whether it has been woken. -/
structure Sleeper where
  proc : Proc
  id : BitVec 32
  sops : List Sembuf
  sop : Sembuf
  semptr : Nat
  doUndos : Bool
  woken : Bool
deriving DecidableEq

/-- The sets, the pool, the undo structures with the list of active ones, and the sleeping calls. -/
structure System where
  semtot : Nat
  sema : Nat → SemidDs
  sem : Nat → Semaphore
  semu : Nat → SemUndo
  semuList : List Nat
  sleepers : List Sleeper

/-- `IPCID_TO_IX` -/
def ipcidToIx (id : BitVec 32) : Nat := (id &&& 0xffff#32).toNat

/-- `IPCID_TO_SEQ` -/
def ipcidToSeq (id : BitVec 32) : BitVec 32 := id >>> 16 &&& 0xffff#32

/-- `IXSEQ_TO_IPCID` -/
def ixseqToIpcid (ix : Nat) (seq : BitVec 16) : BitVec 32 :=
  seq.zeroExtend 32 <<< 16 ||| BitVec.ofNat 32 ix &&& 0xffff#32

/-! ## Undo structures -/

/-- A free structure is looked for. -/
def freeUndo (info : Seminfo) (s : System) : Option Nat :=
  (List.range info.semmnu).find? fun i => (s.semu i).proc.isNone

/-- A free structure is filled in. -/
def fillUndo (p : Proc) (i : Nat) (s : System) : System :=
  { s with
    semu := Function.update s.semu i { proc := some p, ent := [] }
    semuList := i :: s.semuList }

/-- The structures without entries are freed. -/
def purgeUndo (s : System) : System :=
  { s with
    semu := fun i => if i ∈ s.semuList ∧ (s.semu i).ent = [] then { s.semu i with proc := none } else s.semu i
    semuList := s.semuList.filter fun i => decide ((s.semu i).ent ≠ []) }

/-- `semu_alloc`; the result has the structure unless there is none. -/
def semuAlloc (info : Seminfo) (p : Proc) (s : System) : Option (System × Option Nat) :=
  match freeUndo info s with
  | some i => some (fillUndo p i s, some i)
  | none =>
      if s.semuList.any fun i => decide ((s.semu i).ent = []) then
        (freeUndo info (purgeUndo s)).map fun i => (fillUndo p i (purgeUndo s), some i)
      else some (s, none)

/-- The last of the entries takes the place of one of them. -/
def swapRemove (ent : List Undo) (i : Nat) : List Undo :=
  match ent.getLast? with
  | none => ent
  | some last => (ent.set i last).dropLast

/-- An entry is for a semaphore; `un_num` is a `short`. -/
def Undo.isFor (u : Undo) (semid semnum : Nat) : Bool := decide (u.id = semid ∧ u.num.toInt = semnum)

/-- The entries after an adjustment, or none if there is no room.  The adjustment is an `int` here,
but it is zero exactly if its low bits are. -/
def adjustEnt (semume : Nat) (semid semnum : Nat) (adjval : BitVec 16) (ent : List Undo) : Option (List Undo) :=
  match ent.findIdx? (·.isFor semid semnum) with
  | some i =>
      match ent[i]? with
      | none => some ent
      | some u =>
          let adjusted := if adjval = 0 then 0 else u.adjval + adjval
          if adjusted = 0 then some (swapRemove ent i) else some (ent.set i { u with adjval := adjusted })
  | none =>
      if adjval = 0 then some ent
      else if ent.length ≠ semume then some (ent ++ [{ adjval := adjval, num := BitVec.ofNat 16 semnum, id := semid }])
      else none

/-- The structure of a process is looked for on the list. -/
def findUndo (p : Proc) (s : System) : Option Nat := s.semuList.find? fun i => decide ((s.semu i).proc = some p)

/-- The second half of `semundo_adjust`. -/
def adjustUndo (info : Seminfo) (suptr semid semnum : Nat) (adjval : BitVec 16) (s : System) : System × Option Errno :=
  match adjustEnt info.semume semid semnum adjval (s.semu suptr).ent with
  | some ent => ({ s with semu := Function.update s.semu suptr { s.semu suptr with ent := ent } }, none)
  | none => (s, some .EINVAL)

/-- `semundo_adjust`; the result has the structure that is remembered, and the error. -/
def semundoAdjust (info : Seminfo) (p : Proc) (suptr : Option Nat) (semid semnum : Nat) (adjval : BitVec 16) (s : System) :
    Option (System × Option Nat × Option Errno) :=
  match suptr <|> findUndo p s with
  | some i =>
      let (s, eval) := adjustUndo info i semid semnum adjval s
      some (s, some i, eval)
  | none =>
      if adjval = 0 then some (s, none, none)
      else
        match semuAlloc info p s with
        | none => none
        | some (s, none) => some (s, none, some .ENOSPC)
        | some (s, some i) =>
            let (s, eval) := adjustUndo info i semid semnum adjval s
            some (s, some i, eval)

/-- The loop of `semundo_clear` over the entries of a structure, with `-1` for a whole set. -/
def clearEnt (semid : Nat) (semnum : Option Nat) : Nat → Nat → List Undo → List Undo
  | 0, _, ent => ent
  | fuel + 1, i, ent =>
      match ent[i]? with
      | none => ent
      | some u =>
          if u.id = semid then
            if semnum = none ∨ semnum.map Int.ofNat = some u.num.toInt then
              if i < ent.length - 1 then clearEnt semid semnum fuel i (swapRemove ent i)
              else if semnum ≠ none then swapRemove ent i
              else clearEnt semid semnum fuel (i + 1) (swapRemove ent i)
            else if semnum ≠ none then ent
            else clearEnt semid semnum fuel (i + 1) ent
          else clearEnt semid semnum fuel (i + 1) ent

/-- `semundo_clear` -/
def semundoClear (semid : Nat) (semnum : Option Nat) (s : System) : System :=
  { s with
    semu := fun i =>
      if i ∈ s.semuList then
        { s.semu i with ent := clearEnt semid semnum (s.semu i).ent.length 0 (s.semu i).ent }
      else s.semu i }

/-! ## Sleeping -/

/-- `wakeup` of the calls that sleep on a set. -/
def wakeup (semid : Nat) (s : System) : System :=
  { s with sleepers := s.sleepers.map fun w => if ipcidToIx w.id = semid then { w with woken := true } else w }

/-- The calls that wait are counted by one more or one less. -/
def countWaiter (sop : Sembuf) (more : BitVec 16) (x : Semaphore) : Semaphore :=
  if sop.op = 0 then { x with semzcnt := x.semzcnt + more } else { x with semncnt := x.semncnt + more }

/-! ## semop -/

/-- The loop over the operations: the number of those done, the pool, and whether to wake others and
to process undos. -/
structure Progress where
  i : Nat
  sem : Nat → Semaphore
  doWakeup : Bool
  doUndos : Bool

/-- How the loop ends. -/
inductive Stop where
  | through
  | efbig
  | blocked (sop : Sembuf)

/-- `semval += op` -/
def addVal (op : BitVec 16) (x : Semaphore) : Semaphore := { x with semval := x.semval + op }

/-- The loop over the operations. -/
def tryOps (d : SemidDs) : List Sembuf → Progress → Stop × Progress
  | [], p => (.through, p)
  | sop :: rest, p =>
      if d.nsems ≤ sop.num then (.efbig, p)
      else
        let semptr := d.base + sop.num.toNat
        let x := p.sem semptr
        if sop.op.toInt < 0 then
          if x.semval.toNat + sop.op.toInt < 0 then (.blocked sop, p)
          else
            tryOps d rest
              { i := p.i + 1
                sem := Function.update p.sem semptr (addVal sop.op x)
                doWakeup := p.doWakeup || decide (x.semval + sop.op = 0 ∧ 0 < x.semzcnt)
                doUndos := p.doUndos || sop.undo }
        else if sop.op = 0 then
          if 0 < x.semval then (.blocked sop, p) else tryOps d rest { p with i := p.i + 1 }
        else
          tryOps d rest
            { i := p.i + 1
              sem := Function.update p.sem semptr (addVal sop.op x)
              doWakeup := p.doWakeup || decide (0 < x.semncnt)
              doUndos := p.doUndos || sop.undo }

/-- Operations are taken back. -/
def rollback (d : SemidDs) (sops : List Sembuf) (sem : Nat → Semaphore) : Nat → Semaphore :=
  sops.foldl (fun sem sop =>
    Function.update sem (d.base + sop.num.toNat) (addVal (-sop.op) (sem (d.base + sop.num.toNat)))) sem

/-- The operation has an undo. -/
def Sembuf.undoes (sop : Sembuf) : Bool := sop.undo && decide (sop.op ≠ 0)

/-- The adjustments are taken back; the operations are in the order in which this is done. -/
def redoOps (info : Seminfo) (p : Proc) (semid : Nat) : List Sembuf → Option Nat → System → Option System
  | [], _, s => some s
  | sop :: rest, suptr, s =>
      if sop.undoes then
        match semundoAdjust info p suptr semid sop.num.toNat sop.op s with
        | some (s, suptr, none) => redoOps info p semid rest suptr s
        | _ => none
      else redoOps info p semid rest suptr s

/-- The loop that processes undos, with the operations that it has gone through, the last one
first. -/
def undoOps (info : Seminfo) (p : Proc) (semid : Nat) :
    List Sembuf → List Sembuf → Option Nat → System → Option (System × Option Errno)
  | [], _, _, s => some (s, none)
  | sop :: rest, done, suptr, s =>
      if sop.undoes then
        match semundoAdjust info p suptr semid sop.num.toNat (-sop.op) s with
        | none => none
        | some (s, suptr, none) => undoOps info p semid rest (sop :: done) suptr s
        | some (s, suptr, some eval) => (redoOps info p semid done suptr s).map fun s => (s, some eval)
      else undoOps info p semid rest (sop :: done) suptr s

/-- What a pass through the loop of `semop` comes to. -/
inductive Outcome where
  | returned (eval : Option Errno)
  | slept

/-- The part of `semop` behind `donex`. -/
def finish (info : Seminfo) (p : Proc) (semid : Nat) (sops : List Sembuf) (doWakeup doUndos : Bool) (s : System) :
    Option (System × Outcome) :=
  match if doUndos then undoOps info p semid sops [] none s else some (s, none) with
  | none => none
  | some (s, some eval) => some ({ s with sem := rollback (s.sema semid) sops s.sem }, .returned (some eval))
  | some (s, none) =>
      let s :=
        { s with
          sem := sops.foldl (fun sem sop =>
            Function.update sem ((s.sema semid).base + sop.num.toNat)
              { sem ((s.sema semid).base + sop.num.toNat) with sempid := p }) s.sem }
      some (if doWakeup then wakeup semid s else s, .returned none)

/-- A pass through the loop of `semop`. -/
def semopPass (info : Seminfo) (p : Proc) (id : BitVec 32) (sops : List Sembuf) (doUndos : Bool) (s : System) :
    Option (System × Outcome) :=
  let semid := ipcidToIx id
  let d := s.sema semid
  match tryOps d sops { i := 0, sem := s.sem, doWakeup := false, doUndos := doUndos } with
  | (.through, r) => finish info p semid sops r.doWakeup r.doUndos { s with sem := r.sem }
  | (.efbig, r) => some ({ s with sem := r.sem }, .returned (some .EFBIG))
  | (.blocked sop, r) =>
      let sem := rollback d (sops.take r.i) r.sem
      if sop.nowait then some ({ s with sem := sem }, .returned (some .EAGAIN))
      else
        let semptr := d.base + sop.num.toNat
        some
          ({ s with
             sem := Function.update sem semptr (countWaiter sop 1 (sem semptr))
             sleepers :=
               { proc := p, id := id, sops := sops, sop := sop, semptr := semptr, doUndos := r.doUndos
                 woken := false } :: s.sleepers }, .slept)

/-- The id is the one of a set that exists. -/
def exists? (id : BitVec 32) (s : System) : Bool :=
  (s.sema (ipcidToIx id)).alloc && decide ((s.sema (ipcidToIx id)).seq.zeroExtend 32 = ipcidToSeq id)

/-- `MAX_SOPS` -/
def maxSops : Nat := 5

/-- `sys_semop` up to where it returns or sleeps, with the results of `ipcperm` and `copyin`. -/
def sysSemop (info : Seminfo) (p : Proc) (id : BitVec 32) (sops : List Sembuf) (ipcperm copyin : Option Errno)
    (s : System) : Option (System × Outcome) :=
  if info.semmni ≤ ipcidToIx id then some (s, .returned (some .EINVAL))
  else if exists? id s = false then some (s, .returned (some .EINVAL))
  else if ipcperm ≠ none then some (s, .returned ipcperm)
  else if maxSops < sops.length then some (s, .returned (some .E2BIG))
  else if copyin ≠ none then some (s, .returned copyin)
  else semopPass info p id sops false s

/-- `sys_semop` from where it has slept, with whether `tsleep` was interrupted. -/
def resumeSemop (info : Seminfo) (w : Sleeper) (interrupted : Bool) (s : System) : Option (System × Outcome) :=
  if exists? w.id s = false then some (s, .returned (some .EIDRM))
  else
    let s := { s with sem := Function.update s.sem w.semptr (countWaiter w.sop (-1) (s.sem w.semptr)) }
    if interrupted then some (s, .returned (some .EINTR))
    else semopPass info w.proc w.id w.sops w.doUndos s

/-! ## semget, semctl and semexit -/

/-- `sys_semget`, with the result of `ipcperm` for a set that is found. -/
def sysSemget (info : Seminfo) (key nsems : Int) (creat excl : Bool) (ipcperm : Option Errno) (s : System) :
    System × Except Errno (BitVec 32) :=
  let create : System × Except Errno (BitVec 32) :=
    if key = 0 ∨ creat then
      if nsems ≤ 0 ∨ info.semmsl < nsems then (s, .error .EINVAL)
      else if info.semmns - s.semtot < nsems then (s, .error .ENOSPC)
      else
        match (List.range info.semmni).find? fun semid => !(s.sema semid).alloc with
        | none => (s, .error .ENOSPC)
        | some semid =>
            let seq := ((s.sema semid).seq + 1) &&& 0x7fff#16
            ({ s with
               sema := Function.update s.sema semid
                 { alloc := true, key := key, seq := seq, nsems := BitVec.ofInt 16 nsems, base := s.semtot }
               semtot := s.semtot + nsems.toNat
               sem := fun i =>
                 if s.semtot ≤ i ∧ i < s.semtot + nsems.toNat then { semval := 0, sempid := 0, semncnt := 0, semzcnt := 0 }
                 else s.sem i }, .ok (ixseqToIpcid semid seq))
    else (s, .error .ENOENT)
  if key = 0 then create
  else
    match (List.range info.semmni).find? fun semid => (s.sema semid).alloc && decide ((s.sema semid).key = key) with
    | none => create
    | some semid =>
        match ipcperm with
        | some eval => (s, .error eval)
        | none =>
            if 0 < nsems ∧ ((s.sema semid).nsems.toNat : Int) < nsems then (s, .error .EINVAL)
            else if creat && excl then (s, .error .EEXIST)
            else (s, .ok (ixseqToIpcid semid (s.sema semid).seq))

/-- The loop that moves the semaphores behind a set, from index `i` on. -/
def compact (nsems : Nat) : Nat → Nat → (Nat → Semaphore) → Nat → Semaphore
  | 0, _, sem => sem
  | count + 1, i, sem => compact nsems count (i + 1) (Function.update sem i (sem (i + nsems)))

/-- `IPC_RMID` of a set that exists. -/
def rmid (info : Seminfo) (semid : Nat) (s : System) : System :=
  let d := s.sema semid
  let semtot := s.semtot - d.nsems.toNat
  let s :=
    { s with
      semtot := semtot
      sem := compact d.nsems.toNat (semtot - d.base) d.base s.sem
      sema := fun i =>
        if i = semid then { d with alloc := false }
        else if i < info.semmni ∧ (s.sema i).alloc ∧ d.base < (s.sema i).base then
          { s.sema i with base := (s.sema i).base - d.nsems.toNat }
        else s.sema i }
  wakeup semid (semundoClear semid none s)

/-- `SETVAL` of a semaphore of a set that exists. -/
def setval (semid semnum : Nat) (val : BitVec 16) (s : System) : System :=
  let i := (s.sema semid).base + semnum
  wakeup semid (semundoClear semid (some semnum)
    { s with sem := Function.update s.sem i { s.sem i with semval := val } })

/-- `SETALL` of a set that exists, with the values up to where `copyin` fails. -/
def setall (semid : Nat) (vals : List (BitVec 16)) (s : System) : System :=
  let d := s.sema semid
  wakeup semid (semundoClear semid none
    { s with
      sem := fun i =>
        if d.base ≤ i ∧ i < d.base + d.nsems.toNat then
          match vals[i - d.base]? with
          | none => s.sem i
          | some val => { s.sem i with semval := val }
        else s.sem i })

/-- What `semctl` is asked to do. -/
inductive Cmd where
  | rmid
  | setval (semnum : Int) (val : BitVec 32) (copyin : Option Errno)
  | setall (vals : List (BitVec 16))

/-- `sys___semctl` for the commands that change a semaphore, with the result of `ipcperm`. -/
def sysSemctl (info : Seminfo) (id : BitVec 32) (cmd : Cmd) (ipcperm : Option Errno) (s : System) : System :=
  if info.semmni ≤ ipcidToIx id then s
  else if exists? id s = false then s
  else if ipcperm ≠ none then s
  else
    match cmd with
    | .rmid => rmid info (ipcidToIx id) s
    | .setval semnum val copyin =>
        if semnum < 0 ∨ (s.sema (ipcidToIx id)).nsems.toNat ≤ semnum then s
        else if copyin ≠ none then s
        else setval (ipcidToIx id) semnum.toNat (val.truncate 16) s
    | .setall vals => setall (ipcidToIx id) vals s

/-- An adjustment at exit. -/
def exitVal (adjval : BitVec 16) (x : Semaphore) : Semaphore :=
  if adjval.toInt < 0 ∧ (x.semval.toNat : Int) < -adjval.toInt then { x with semval := 0 } else addVal adjval x

/-- The loop of `semexit` over the entries. -/
def exitEnts : List Undo → System → Option System
  | [], s => some s
  | u :: rest, s =>
      let d := s.sema u.id
      if d.alloc = false then none
      else if d.nsems.toNat ≤ u.num.toInt then none
      else
        let i := (d.base + u.num.toInt).toNat
        exitEnts rest (wakeup u.id { s with sem := Function.update s.sem i (exitVal u.adjval (s.sem i)) })

/-- `semexit` -/
def semexit (p : Proc) (s : System) : Option System :=
  match findUndo p s with
  | none => some s
  | some i =>
      (exitEnts (s.semu i).ent s).map fun s =>
        { s with
          semu := Function.update s.semu i { s.semu i with proc := none }
          semuList := s.semuList.erase i }

/-! ## Runs -/

/-- `seminit`: the rest of the memory is not cleared. -/
def seminit (sema : Nat → SemidDs) (sem : Nat → Semaphore) (semu : Nat → SemUndo) : System :=
  { semtot := 0
    sema := fun i => { sema i with alloc := false, base := 0 }
    sem := sem
    semu := fun i => { semu i with proc := none }
    semuList := []
    sleepers := [] }

inductive Call where
  /-- `sys_semget` -/
  | semget (key nsems : Int) (creat excl : Bool) (ipcperm : Option Errno)
  /-- `sys_semop` -/
  | semop (p : Proc) (id : BitVec 32) (sops : List Sembuf) (ipcperm copyin : Option Errno)
  /-- a call of `sys_semop` goes on behind `tsleep` -/
  | resume (index : Nat) (interrupted : Bool)
  /-- `sys___semctl` -/
  | semctl (id : BitVec 32) (cmd : Cmd) (ipcperm : Option Errno)
  /-- `semexit` -/
  | exit (p : Proc)

/-- A step of the system, with what a call of `semop` comes to; a panic ends it. -/
def step (info : Seminfo) (s : System) : Call → Option (System × Option Outcome)
  | .semget key nsems creat excl ipcperm => some ((sysSemget info key nsems creat excl ipcperm s).1, none)
  | .semop p id sops ipcperm copyin => (sysSemop info p id sops ipcperm copyin s).map fun (s, r) => (s, some r)
  | .resume index interrupted =>
      match s.sleepers[index]? with
      | none => some (s, none)
      | some w =>
          if w.woken || interrupted then
            (resumeSemop info w interrupted { s with sleepers := s.sleepers.eraseIdx index }).map fun (s, r) => (s, some r)
          else some (s, none)
  | .semctl id cmd ipcperm => some (sysSemctl info id cmd ipcperm s, none)
  | .exit p => (semexit p s).map fun s => (s, none)

end Dragonfly.Kern.Sem
