import Xv6.Base
import Xv6.Lib.Interleave

/-!
# Processes, locks and the pipe

The state that `proc.c`, `pipe.c` and the sleeping loops of `console.c` and `sysproc.c` share, and the
steps of a process on it.  Acquiring and releasing a spin lock are steps of their own; what the code
does between them on the data that the lock protects is one step.  The history variables record what the
code does not: which sleeps are in progress, who forked whom, which bytes went through the pipe.
-/

namespace Xv6.Proc

open Function

/-- `enum procstate`. -/
inductive ProcState where
  | unused
  | used
  | sleeping
  | runnable
  | running
  | zombie
  deriving DecidableEq

/-- The channels that processes sleep on. -/
inductive Chan where
  | proc (p : ℕ)
  | nread
  | nwrite
  | ticks
  | cons
  | other (k : ℕ)
  deriving DecidableEq

/-- The spin locks. -/
inductive Lock where
  | wait
  | proc (p : ℕ)
  | pipe
  | ticks
  | cons
  | other (k : ℕ)
  deriving DecidableEq

@[simp] def Lock.isProc : Lock → Bool
  | proc _ => true
  | _ => false

/-- The loops that test `killed` before they sleep. -/
inductive Loop where
  | wait
  | piperead
  | pipewrite
  | consoleread
  | sleep
  deriving DecidableEq

abbrev PIPESIZE : ℕ := 512

/-- `struct pipe`. -/
structure Pipe where
  data : ℕ → Byte
  nread : BitVec 32
  nwrite : BitVec 32
  readopen : Bool
  writeopen : Bool

abbrev INPUT_BUF_SIZE : ℕ := 128

/-- The input buffer of the console: `r` is the read index, `w` the write index and `e` the edit
index. -/
structure Cons where
  buf : ℕ → Byte
  r : BitVec 32
  w : BitVec 32
  e : BitVec 32

/-- What happened to the flag `killed` of a process slot. -/
inductive Event where
  | alloc (slot : ℕ)
  | kill (pid : BitVec 32)
  | fault (slot : ℕ)
  deriving DecidableEq

/-- A process that `wait` has returned: its identity, its exit status and who waited for it. -/
structure Reaped where
  child : ℕ
  status : BitVec 32
  waiter : ℕ
  deriving DecidableEq

/-- The slot of `init`. -/
abbrev initproc : ℕ := 0

/-- The process table, the locks, the pipe and the console. -/
structure State where
  pstate : ℕ → ProcState
  chan : ℕ → Option Chan
  killed : ℕ → Bool
  xstate : ℕ → BitVec 32
  pid : ℕ → BitVec 32
  parent : ℕ → Option ℕ
  locks : Lock → Option ℕ
  /-- `mycpu()->noff` while a process runs: the number of locks it holds. -/
  noff : ℕ → ℕ
  nextpid : BitVec 32
  pipe : Pipe
  cons : Cons
  ticks : BitVec 32
  /-- Whether the allocations and copies to come succeed. -/
  oracle : List Bool
  /-- History: the channel of a sleep that has released its lock and has not been made runnable. -/
  sleep : ℕ → Option Chan
  /-- History: the number of sleeps of a process that have released their lock. -/
  sleeps : ℕ → ℕ
  /-- History: the number of sleeps of a process that have been made runnable. -/
  roused : ℕ → ℕ
  /-- History: the sleeps on its channel that were in progress when a running `wakeup` started. -/
  waking : ℕ → List (ℕ × ℕ)
  /-- History: the same for the calls of `wakeup` that have returned, with their callers. -/
  woke : List (ℕ × List (ℕ × ℕ))
  /-- History: the identities given to processes so far. -/
  nuid : ℕ
  /-- History: the identity of the process in a slot. -/
  uid : ℕ → ℕ
  /-- History: who forked a process, by identity. -/
  forker : ℕ → ℕ
  /-- History: the status a process has called `exit` with, by identity. -/
  exited : ℕ → Option (BitVec 32)
  /-- History: the processes that `wait` has returned. -/
  reaped : List Reaped
  /-- History: the loop in which a process has found `killed` clear, until it takes its own lock or goes
on. -/
  tested : ℕ → Option Loop
  /-- History: the process has put a byte into the pipe and not called `wakeup` since. -/
  owes : ℕ → Bool
  /-- History: what happened to the flags `killed`, the latest first. -/
  events : List Event
  /-- History: the calls of `pipewrite` so far. -/
  nwrites : ℕ
  /-- History: the last call of `pipewrite` of a process. -/
  write : ℕ → ℕ
  /-- History: the calls of `pipewrite` that have slept. -/
  slept : ℕ → Bool
  /-- History: the bytes put into the pipe, with the call that put them. -/
  put : List (ℕ × Byte)
  /-- History: the bytes taken out of the pipe. -/
  taken : List Byte

/-- The outcome of `wait` for a child that it has locked. -/
inductive Reap where
  | alive
  | copyFails
  | reaped (pid : BitVec 32)
  deriving DecidableEq

/-- The atomic steps of the kernel. -/
inductive Step where
  | acquire (l : Lock)
  | release (l : Lock)
  /-- `sleep`: release the lock of the condition. -/
  | releaseFor (l : Lock) (c : Chan)
  /-- `sleep`: `p->chan = chan; p->state = SLEEPING` -/
  | sleeping (c : Chan)
  /-- `sched`: the scheduler releases `p->lock`. -/
  | swtch
  /-- The scheduler takes `p->lock` of a runnable process and runs it. -/
  | resume
  /-- `sleep`: `p->chan = 0` -/
  | clearChan
  /-- `yield`: `p->state = RUNNABLE` -/
  | yielding
  | wakeupBegin (c : Chan)
  /-- `wakeup`: make process `q` runnable if it sleeps on `c`. -/
  | wakeIf (q : ℕ) (c : Chan)
  | wakeupEnd
  /-- `kill`: kill and wake process `q` if it has this pid. -/
  | killIf (q : ℕ) (pid : BitVec 32)
  /-- `killed`: read the flag. -/
  | isKilled (loop : Loop)
  | setKilled
  /-- `allocproc`: take slot `q` if it is unused. -/
  | allocSlot (q : ℕ)
  | freeSlot (q : ℕ)
  /-- `fork`: `np->parent = p` -/
  | setParent (q : ℕ)
  /-- `fork`: `np->state = RUNNABLE` -/
  | startSlot (q : ℕ)
  | exiting (status : BitVec 32)
  /-- `reparent`: give `q` to the first process if it is a child. -/
  | reparent (q : ℕ)
  | myParent
  /-- `exit`: `p->xstate = status; p->state = ZOMBIE` -/
  | zombie (status : BitVec 32)
  /-- `wait`: `pp->parent == p` -/
  | isChild (q : ℕ)
  /-- `wait`: copy the status of `q` and free it if it is a zombie. -/
  | reap (q : ℕ)
  | getppid
  /-- An allocation or a copy that may fail. -/
  | attempt
  /-- A loop that goes on for longer than the model follows it. -/
  | more
  | writeBegin
  | readopen
  | writeopen
  /-- `pi->nwrite == pi->nread + PIPESIZE` -/
  | full
  /-- `pi->nread == pi->nwrite` -/
  | empty
  /-- `pi->data[pi->nwrite++ % PIPESIZE] = ch` -/
  | putByte (ch : Byte)
  /-- `ch = pi->data[pi->nread++ % PIPESIZE]` -/
  | takeByte
  /-- `pipeclose`: clear one of the flags; whether both are clear. -/
  | closeEnd (writable : Bool)
  | ticks
  /-- `clockintr`: `ticks++` -/
  | tick
  /-- `cons.r == cons.w` -/
  | consEmpty
  /-- `cons.buf[cons.r++ % INPUT_BUF_SIZE]` -/
  | consTake
  /-- `cons.r--` -/
  | consUntake
  /-- `consoleintr`: handle one character; whether a whole line has arrived. -/
  | consIntr (c : Byte)

@[reducible] def Step.Res : Step → Type
  | killIf .. | isKilled _ | reparent _ | isChild _ | attempt | readopen | writeopen | full | empty
  | closeEnd _ | consEmpty | consIntr _ => Bool
  | allocSlot _ => Option (BitVec 32)
  | myParent => Option ℕ
  | reap _ => Reap
  | getppid | ticks => BitVec 32
  | takeByte | consTake => Byte
  | more => Empty
  | acquire _ | release _ | releaseFor .. | sleeping _ | swtch | resume | clearChan | yielding
  | wakeupBegin _ | wakeIf .. | wakeupEnd | setKilled | freeSlot _ | setParent _ | startSlot _
  | exiting _ | zombie _ | writeBegin | putByte _ | tick | consUntake => Unit

abbrev PSig : Sig := ⟨Step, Step.Res⟩

abbrev PProg := Prog PSig

abbrev atomic (o : Step) : PProg o.Res := Prog.op o Prog.ret

/-- What the runs under consideration avoid: a `pipewrite` that finds itself killed after it has put
bytes into the pipe without a `wakeup`, a `kill` of a process between its test of `killed` and its
sleep, and a call `kill(0)`. -/
structure Care where
  prompt : Bool
  heed : Bool
  nonzero : Bool

def Care.none : Care := ⟨false, false, false⟩

namespace Pipe

/-- There is no room for a byte. -/
def Full (x : Pipe) : Prop := x.nwrite = x.nread + BitVec.ofNat 32 PIPESIZE

/-- There is no byte to read. -/
def Empty (x : Pipe) : Prop := x.nread = x.nwrite

instance (x : Pipe) : Decidable x.Full := inferInstanceAs (Decidable (_ = _))

instance (x : Pipe) : Decidable x.Empty := inferInstanceAs (Decidable (_ = _))

def store (x : Pipe) (ch : Byte) : Pipe :=
  { x with
    data := update x.data (x.nwrite.toNat % PIPESIZE) ch
    nwrite := x.nwrite + 1 }

def front (x : Pipe) : Byte := x.data (x.nread.toNat % PIPESIZE)

end Pipe

namespace Cons

/-- Kill line: erase what has not been committed, at most `n` characters. -/
def killLine (x : Cons) : ℕ → Cons
  | 0 => x
  | n + 1 =>
      if x.e ≠ x.w ∧ x.buf ((x.e - 1).toNat % INPUT_BUF_SIZE) ≠ 10 then
        killLine { x with e := x.e - 1 } n
      else x

def append (x : Cons) (c : Byte) : Bool × Cons :=
  let buf := update x.buf (x.e.toNat % INPUT_BUF_SIZE) c
  let e := x.e + 1
  if c = 10 ∨ c = 4 ∨ e - x.r = BitVec.ofNat 32 INPUT_BUF_SIZE then (true, ⟨buf, x.r, e, e⟩)
  else (false, ⟨buf, x.r, x.w, e⟩)

/-- `consoleintr`: control-P, control-U, control-H and delete, and any other character. -/
def intr (x : Cons) (c : Byte) : Bool × Cons :=
  if c = 16 then (false, x)
  else if c = 21 then (false, x.killLine (x.e - x.w).toNat)
  else if c = 8 ∨ c = 127 then (false, if x.e ≠ x.w then { x with e := x.e - 1 } else x)
  else if c ≠ 0 ∧ x.e - x.r < BitVec.ofNat 32 INPUT_BUF_SIZE then x.append (if c = 13 then 10 else c)
  else (false, x)

end Cons

namespace State

variable (s : State)

def window (q : ℕ) : Bool :=
  match s.tested q with
  | none => false
  | some .pipewrite => decide s.pipe.Full
  | some _ => true

def careful (care : Care) (p : ℕ) : Step → Bool
  | .killIf q pid => !(care.heed && s.pid q == pid && s.window q)
  | .isKilled .pipewrite => !(care.prompt && s.killed p && s.owes p)
  | _ => true

def lucky : Bool := s.oracle.headD true

/-- An answer has been used. -/
def asked : State := { s with oracle := s.oracle.tail }

def wake (q : ℕ) : State :=
  { s with
    pstate := update s.pstate q .runnable
    sleep := update s.sleep q none
    roused := update s.roused q (s.roused q + 1) }

def free (q : ℕ) : State :=
  { s with
    pid := update s.pid q 0
    parent := update s.parent q none
    chan := update s.chan q none
    killed := update s.killed q false
    xstate := update s.xstate q 0
    pstate := update s.pstate q .unused }

def alloc (p q : ℕ) : State :=
  { s with
    pid := update s.pid q s.nextpid
    nextpid := s.nextpid + 1
    pstate := update s.pstate q .used
    nuid := s.nuid + 1
    uid := update s.uid q s.nuid
    forker := update s.forker s.nuid (s.uid p)
    events := .alloc q :: s.events }

/-- The pid of the parent. -/
def ppid (p : ℕ) : BitVec 32 :=
  match s.parent p with
  | some r => s.pid r
  | none => 0

def sleepers (N : ℕ) (c : Chan) : List (ℕ × ℕ) :=
  ((List.range N).filter fun q => s.sleep q = some c).map fun q => (q, s.sleeps q)

end State

def Step.exec (N p : ℕ) : (o : Step) → State → Except (Halt Panic) (o.Res × State)
  | acquire l, s =>
      if s.locks l = none then
        .ok ((), { s with
          locks := update s.locks l (some p)
          noff := update s.noff p (s.noff p + 1)
          tested := if l = .proc p then update s.tested p none else s.tested })
      else if s.locks l = some p then .error (.panic .acquire)
      else .error .blocked
  | release l, s =>
      if s.locks l = some p then
        .ok ((), { s with
          locks := update s.locks l none
          noff := update s.noff p (s.noff p - 1)
          tested := if l.isProc then s.tested else update s.tested p none })
      else .error (.panic .release)
  | releaseFor l c, s =>
      if s.locks l = some p then
        .ok ((), { s with
          locks := update s.locks l none
          noff := update s.noff p (s.noff p - 1)
          sleep := update s.sleep p (some c)
          sleeps := update s.sleeps p (s.sleeps p + 1)
          slept := if c = .nwrite then update s.slept (s.write p) true else s.slept })
      else .error (.panic .release)
  | sleeping c, s =>
      .ok ((), { s with
        chan := update s.chan p (some c)
        pstate := update s.pstate p .sleeping })
  | swtch, s =>
      if s.locks (.proc p) = some p ∧ s.noff p = 1 ∧ s.pstate p ≠ .running then
        .ok ((), { s with
          locks := update s.locks (.proc p) none
          noff := update s.noff p 0 })
      else .error (.panic .sched)
  | resume, s =>
      if s.pstate p = .runnable ∧ s.locks (.proc p) = none then
        .ok ((), { s with
          locks := update s.locks (.proc p) (some p)
          noff := update s.noff p 1
          pstate := update s.pstate p .running })
      else .error .blocked
  | clearChan, s => .ok ((), { s with chan := update s.chan p none })
  | yielding, s => .ok ((), { s with pstate := update s.pstate p .runnable })
  | wakeupBegin c, s =>
      .ok ((), { s with
        waking := update s.waking p (s.sleepers N c)
        owes := if c = .nread then update s.owes p false else s.owes })
  | wakeIf q c, s =>
      if s.pstate q = .sleeping ∧ s.chan q = some c then .ok ((), s.wake q) else .ok ((), s)
  | wakeupEnd, s => .ok ((), { s with woke := (p, s.waking p) :: s.woke })
  | killIf q pid, s =>
      if s.pid q = pid then
        let s := { s with killed := update s.killed q true, events := .kill pid :: s.events }
        .ok (true, if s.pstate q = .sleeping then s.wake q else s)
      else .ok (false, s)
  | isKilled loop, s =>
      .ok (s.killed p, { s with
        tested := update s.tested p (if s.killed p then none else some loop) })
  | setKilled, s =>
      .ok ((), { s with killed := update s.killed p true, events := .fault p :: s.events })
  | allocSlot q, s =>
      if s.pstate q = .unused then .ok (some s.nextpid, s.alloc p q) else .ok (none, s)
  | freeSlot q, s => .ok ((), s.free q)
  | setParent q, s => .ok ((), { s with parent := update s.parent q (some p) })
  | startSlot q, s => .ok ((), { s with pstate := update s.pstate q .runnable })
  | exiting status, s =>
      if p = initproc then .error (.panic .initExiting)
      else .ok ((), { s with exited := update s.exited (s.uid p) (some status) })
  | reparent q, s =>
      if s.parent q = some p then
        .ok (true, { s with parent := update s.parent q (some initproc) })
      else .ok (false, s)
  | myParent, s => .ok (s.parent p, s)
  | zombie status, s =>
      .ok ((), { s with
        xstate := update s.xstate p status
        pstate := update s.pstate p .zombie })
  | isChild q, s => .ok (decide (s.parent q = some p), s)
  | reap q, s =>
      if s.pstate q = .zombie then
        if s.lucky then
          .ok (.reaped (s.pid q), { s.asked.free q with
            reaped := ⟨s.uid q, s.xstate q, s.uid p⟩ :: s.reaped })
        else .ok (.copyFails, s.asked)
      else .ok (.alive, s)
  | getppid, s => .ok (s.ppid p, s)
  | attempt, s => .ok (s.lucky, s.asked)
  | more, _ => .error .blocked
  | writeBegin, s =>
      .ok ((), { s with
        nwrites := s.nwrites + 1
        write := update s.write p s.nwrites })
  | readopen, s => .ok (s.pipe.readopen, s)
  | writeopen, s => .ok (s.pipe.writeopen, s)
  | full, s => .ok (decide s.pipe.Full, s)
  | empty, s => .ok (decide s.pipe.Empty, s)
  | putByte ch, s =>
      .ok ((), { s with
        pipe := s.pipe.store ch
        put := s.put ++ [(s.write p, ch)]
        owes := update s.owes p true
        tested := update s.tested p none })
  | takeByte, s =>
      .ok (s.pipe.front, { s with
        pipe := { s.pipe with nread := s.pipe.nread + 1 }
        taken := s.taken ++ [s.pipe.front] })
  | closeEnd writable, s =>
      let x := if writable then { s.pipe with writeopen := false }
        else { s.pipe with readopen := false }
      .ok (!x.readopen && !x.writeopen, { s with pipe := x })
  | ticks, s => .ok (s.ticks, s)
  | tick, s => .ok ((), { s with ticks := s.ticks + 1 })
  | consEmpty, s => .ok (decide (s.cons.r = s.cons.w), s)
  | consTake, s =>
      .ok (s.cons.buf (s.cons.r.toNat % INPUT_BUF_SIZE),
        { s with cons := { s.cons with r := s.cons.r + 1 } })
  | consUntake, s => .ok ((), { s with cons := { s.cons with r := s.cons.r - 1 } })
  | consIntr c, s => .ok ((s.cons.intr c).1, { s with cons := (s.cons.intr c).2 })

/-- One step of process `p`, if the callers' care admits it. -/
def State.exec (N : ℕ) (care : Care) (p : ℕ) : Handler PSig State Panic := fun o s =>
  if s.careful care p o then Step.exec N p o s else .error .blocked

end Xv6.Proc
