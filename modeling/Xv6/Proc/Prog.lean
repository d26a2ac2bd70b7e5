import Xv6.Proc.State

/-!
# The functions of `proc.c` and `pipe.c`

`p` is the calling process and `N` the number of slots of the process table.  The loops that go on until
something happens take a bound on the rounds they are followed for; a run of the kernel is a run of the
model for every bound that is large enough.
-/

namespace Xv6.Proc

def acquire (l : Lock) : PProg Unit := atomic (.acquire l)

def release (l : Lock) : PProg Unit := atomic (.release l)

def more {α : Type} : PProg α := .op .more Empty.elim

/-! ## Sleep and wakeup -/

def sleep (p : ℕ) (c : Chan) (l : Lock) : PProg Unit := do
  acquire (.proc p)
  atomic (.releaseFor l c)
  atomic (.sleeping c)
  atomic .swtch
  atomic .resume
  atomic .clearChan
  release (.proc p)
  acquire l

def wakeSlot (p : ℕ) (c : Chan) (q : ℕ) : PProg Unit :=
  if q = p then pure ()
  else do
    acquire (.proc q)
    atomic (.wakeIf q c)
    release (.proc q)

def wakeup (N p : ℕ) (c : Chan) : PProg Unit := do
  atomic (.wakeupBegin c)
  Prog.loop (wakeSlot p c) 0 N
  atomic .wakeupEnd

def killFrom (pid : BitVec 32) : (k q : ℕ) → PProg ℤ
  | 0, _ => pure (-1)
  | k + 1, q => do
      acquire (.proc q)
      let found ← atomic (.killIf q pid)
      release (.proc q)
      if found then pure 0 else killFrom pid k (q + 1)

/-- `kill(pid)`. -/
def kill (N : ℕ) (pid : BitVec 32) : PProg ℤ := killFrom pid N 0

/-- Set the flag of the process itself, as `usertrap` does for a fault. -/
def setkilled (p : ℕ) : PProg Unit := do
  acquire (.proc p)
  atomic .setKilled
  release (.proc p)

def killed (p : ℕ) (loop : Loop) : PProg Bool := do
  acquire (.proc p)
  let k ← atomic (.isKilled loop)
  release (.proc p)
  pure k

def yield (p : ℕ) : PProg Unit := do
  acquire (.proc p)
  atomic .yielding
  atomic .swtch
  atomic .resume
  release (.proc p)

def forkret (p : ℕ) : PProg Unit := do
  atomic .resume
  release (.proc p)

/-! ## Fork, exit and wait -/

/-- The part of `allocproc` after it has found slot `q`: allocate a trapframe page and a page
table. -/
def allocPages (q : ℕ) : PProg Bool := do
  let trapframe ← atomic .attempt
  if trapframe then
    let pagetable ← atomic .attempt
    if pagetable then pure true
    else
      atomic (.freeSlot q)
      release (.proc q)
      pure false
  else
    atomic (.freeSlot q)
    release (.proc q)
    pure false

def allocprocFrom : (k q : ℕ) → PProg (Option (ℕ × BitVec 32))
  | 0, _ => pure none
  | k + 1, q => do
      acquire (.proc q)
      match ← atomic (.allocSlot q) with
      | some pid =>
          let ok ← allocPages q
          pure (if ok then some (q, pid) else none)
      | none =>
          release (.proc q)
          allocprocFrom k (q + 1)

/-- `fork()`. -/
def fork (N : ℕ) : PProg ℤ := do
  match ← allocprocFrom N 0 with
  | none => pure (-1)
  | some (np, pid) =>
      let copied ← atomic .attempt
      if copied then
        release (.proc np)
        acquire .wait
        atomic (.setParent np)
        release .wait
        acquire (.proc np)
        atomic (.startSlot np)
        release (.proc np)
        pure pid.toInt
      else
        atomic (.freeSlot np)
        release (.proc np)
        pure (-1)

def reparentSlot (N p q : ℕ) : PProg Unit := do
  let child ← atomic (.reparent q)
  if child then wakeup N p (.proc initproc) else pure ()

def wakeupParent (N p : ℕ) : PProg Unit := do
  match ← atomic .myParent with
  | some r => wakeup N p (.proc r)
  | none => pure ()

def exit (N p : ℕ) (status : BitVec 32) : PProg Unit := do
  atomic (.exiting status)
  acquire .wait
  Prog.loop (reparentSlot N p) 0 N
  wakeupParent N p
  acquire (.proc p)
  atomic (.zombie status)
  release .wait
  atomic .swtch

/-- The scan of `wait` from slot `q` on, with `k` slots left: the value that `wait` returns, or
whether there are children. -/
def waitScan : (k q : ℕ) → Bool → PProg (ℤ ⊕ Bool)
  | 0, _, havekids => pure (.inr havekids)
  | k + 1, q, havekids => do
      let child ← atomic (.isChild q)
      if child then
        acquire (.proc q)
        match ← atomic (.reap q) with
        | .reaped pid =>
            release (.proc q)
            release .wait
            pure (.inl pid.toInt)
        | .copyFails =>
            release (.proc q)
            release .wait
            pure (.inl (-1))
        | .alive =>
            release (.proc q)
            waitScan k (q + 1) true
      else waitScan k (q + 1) havekids

def waitLoop (N p : ℕ) : ℕ → PProg ℤ
  | 0 => more
  | k + 1 => do
      match ← waitScan N 0 false with
      | .inl r => pure r
      | .inr havekids =>
          if havekids then
            let k' ← killed p .wait
            if k' then
              release .wait
              pure (-1)
            else
              sleep p (.proc p) .wait
              waitLoop N p k
          else
            release .wait
            pure (-1)

/-- `wait()`. -/
def wait (N p fuel : ℕ) : PProg ℤ := do
  acquire .wait
  waitLoop N p fuel

/-! ## The pipe -/

def pipewriteEnd (N p i : ℕ) : PProg ℤ := do
  wakeup N p .nread
  release .pipe
  pure i

/-- The loop of `pipewrite` with the bytes that are left and the number of bytes written. -/
def pipewriteLoop (N p : ℕ) : ℕ → List Byte → ℕ → PProg ℤ
  | 0, _, _ => more
  | _ + 1, [], i => pipewriteEnd N p i
  | k + 1, ch :: rest, i => do
      let open' ← atomic .readopen
      if open' then
        let k' ← killed p .pipewrite
        if k' then
          release .pipe
          pure (-1)
        else
          let full ← atomic .full
          if full then
            wakeup N p .nread
            sleep p .nwrite .pipe
            pipewriteLoop N p k (ch :: rest) i
          else
            let ok ← atomic .attempt
            if ok then
              atomic (.putByte ch)
              pipewriteLoop N p k rest (i + 1)
            else pipewriteEnd N p i
      else
        release .pipe
        pure (-1)

def pipewrite (N p fuel : ℕ) (bytes : List Byte) : PProg ℤ := do
  atomic .writeBegin
  acquire .pipe
  pipewriteLoop N p fuel bytes 0

/-- The loop of `piperead` that copies; `k` bytes are still asked for and `i` have been read. -/
def pipereadCopy : (k i : ℕ) → PProg ℕ
  | 0, i => pure i
  | k + 1, i => do
      let empty ← atomic .empty
      if empty then pure i
      else
        let _ ← atomic .takeByte
        let ok ← atomic .attempt
        if ok then pipereadCopy k (i + 1) else pure i

def pipereadEnd (N p n : ℕ) : PProg ℤ := do
  let i ← pipereadCopy n 0
  wakeup N p .nwrite
  release .pipe
  pure i

def pipereadLoop (N p n : ℕ) : ℕ → PProg ℤ
  | 0 => more
  | k + 1 => do
      let empty ← atomic .empty
      if empty then
        let open' ← atomic .writeopen
        if open' then
          let k' ← killed p .piperead
          if k' then
            release .pipe
            pure (-1)
          else
            sleep p .nread .pipe
            pipereadLoop N p n k
        else pipereadEnd N p n
      else pipereadEnd N p n

def piperead (N p fuel n : ℕ) : PProg ℤ := do
  acquire .pipe
  pipereadLoop N p n fuel

def pipeclose (N p : ℕ) (writable : Bool) : PProg Unit := do
  acquire .pipe
  let _ ← atomic (.closeEnd writable)
  wakeup N p (if writable then .nread else .nwrite)
  release .pipe

/-! ## Clock and console -/

def sleepLoop (p : ℕ) (ticks0 n : BitVec 32) : ℕ → PProg ℤ
  | 0 => more
  | k + 1 => do
      let ticks ← atomic .ticks
      if ticks - ticks0 < n then
        let k' ← killed p .sleep
        if k' then
          release .ticks
          pure (-1)
        else
          sleep p .ticks .ticks
          sleepLoop p ticks0 n k
      else
        release .ticks
        pure 0

def sysSleep (p fuel : ℕ) (n : BitVec 32) : PProg ℤ := do
  acquire .ticks
  let ticks0 ← atomic .ticks
  sleepLoop p ticks0 n fuel

def clockintr (N p : ℕ) : PProg Unit := do
  acquire .ticks
  atomic .tick
  wakeup N p .ticks
  release .ticks

def consolereadEnd (target n : ℕ) : PProg ℤ := do
  release .cons
  pure ((target : ℤ) - n)

def consolereadLoop (p target : ℕ) : ℕ → ℕ → PProg ℤ
  | 0, _ => more
  | _ + 1, 0 => consolereadEnd target 0
  | k + 1, n + 1 => do
      let empty ← atomic .consEmpty
      if empty then
        let k' ← killed p .consoleread
        if k' then
          release .cons
          pure (-1)
        else
          sleep p .cons .cons
          consolereadLoop p target k (n + 1)
      else
        let c ← atomic .consTake
        -- control-D is the end of the file
        if c = 4 then
          if n + 1 < target then
            atomic .consUntake
            consolereadEnd target (n + 1)
          else consolereadEnd target (n + 1)
        else
          let ok ← atomic .attempt
          if ok then
            if c = 10 then consolereadEnd target n else consolereadLoop p target k n
          else consolereadEnd target (n + 1)

def consoleread (p fuel n : ℕ) : PProg ℤ := do
  acquire .cons
  consolereadLoop p n fuel n

def consoleWake (N p : ℕ) (line : Bool) : PProg Unit :=
  if line then wakeup N p .cons else pure ()

def consoleintr (N p : ℕ) (c : Byte) : PProg Unit := do
  acquire .cons
  let line ← atomic (.consIntr c)
  consoleWake N p line
  release .cons

/-- Any other use of `sleep`: under lock `l`, sleep on `k` as often as the condition demands. -/
def sleepWhile (p k l : ℕ) : ℕ → PProg Unit
  | 0 => more
  | n + 1 => do
      let again ← atomic .attempt
      if again then
        sleep p (.other k) (.other l)
        sleepWhile p k l n
      else release (.other l)

/-- The system calls. -/
inductive Call where
  | fork
  | exit (status : BitVec 32)
  | wait (fuel : ℕ)
  | getppid
  | kill (pid : BitVec 32)
  | fault
  | yield
  | pipewrite (fuel : ℕ) (bytes : List Byte)
  | piperead (fuel n : ℕ)
  | pipeclose (writable : Bool)
  | sleep (fuel : ℕ) (n : BitVec 32)
  | consoleread (fuel n : ℕ)
  | sleepOn (k l fuel : ℕ)
  | wakeup (k : ℕ)

/-- The interrupts. -/
inductive Interrupt where
  | clock
  | console (c : Byte)
  /-- A device that wakes the processes sleeping on `k`. -/
  | device (k : ℕ)

def Call.prog (N p : ℕ) : Call → PProg Unit
  | fork => Proc.fork N >>= fun _ => .ret ()
  | exit status => Proc.exit N p status
  | wait fuel => Proc.wait N p fuel >>= fun _ => .ret ()
  | getppid => atomic .getppid >>= fun _ => .ret ()
  | kill pid => Proc.kill N pid >>= fun _ => .ret ()
  | fault => setkilled p
  | yield => Proc.yield p
  | pipewrite fuel bytes => Proc.pipewrite N p fuel bytes >>= fun _ => .ret ()
  | piperead fuel n => Proc.piperead N p fuel n >>= fun _ => .ret ()
  | pipeclose writable => Proc.pipeclose N p writable
  | sleep fuel n => sysSleep p fuel n >>= fun _ => .ret ()
  | consoleread fuel n => Proc.consoleread p fuel n >>= fun _ => .ret ()
  | sleepOn k l fuel => do
      acquire (.other l)
      sleepWhile p k l fuel
  | wakeup k => Proc.wakeup N p (.other k)

def Interrupt.prog (N p : ℕ) : Interrupt → PProg Unit
  | clock => clockintr N p
  | console c => consoleintr N p c
  | device k => Proc.wakeup N p (.other k)

/-- The calls that the processes may make. -/
def Care.Admits (care : Care) : Call → Prop
  | .kill pid => care.nonzero = true → pid ≠ 0
  | _ => True

/-! ## What may start -/

@[simp, grind] def heldNext (p : ℕ) (held : List Lock) : Step → List Lock
  | .acquire l => l :: held
  | .release l | .releaseFor l _ => held.erase l
  | .swtch => []
  | .resume => [.proc p]
  | _ => held

/-- What a timer interrupt finds: the locks that the process holds, and whether it runs. -/
structure Point where
  held : List Lock
  runs : Bool

def Point.next (p : ℕ) (x : Point) (o : Step) : Point where
  held := heldNext p x.held o
  runs := match o with
    | .swtch => false
    | .resume => true
    | _ => x.runs

/-- No lock keeps the interrupts off, and `kerneltrap` finds the process running. -/
def Point.Open (x : Point) : Prop := x.held = [] ∧ x.runs = true

/-- The program with the calls of `yield` that timer interrupts in the kernel add to it. -/
abbrev Preempted (p : ℕ) : Point → PProg Unit → PProg Unit → Prop :=
  Prog.Inserts (Point.next p) Point.Open (yield p)

/-- A runnable process that is not in the kernel is a new one, a running one makes a call, and the
numbers from `N` on are CPUs that take an interrupt. -/
inductive Start (N : ℕ) (care : Care) (p : ℕ) (s : State) (body : PProg Unit) : Prop
  | forkret (slot : p < N) (ready : s.pstate p = .runnable)
      (preempted : Preempted p ⟨[], false⟩ (forkret p) body)
  | call (slot : p < N) (running : s.pstate p = .running) (c : Call) (admitted : care.Admits c)
      (preempted : Preempted p ⟨[], true⟩ (c.prog N p) body)
  | interrupt (cpu : N ≤ p) (i : Interrupt) (body_eq : body = i.prog N p)

def boot (oracle : List Bool) : Conf PSig State where
  state :=
    { pstate := fun q => if q = initproc then .runnable else .unused
      chan := fun _ => none
      killed := fun _ => false
      xstate := fun _ => 0
      pid := fun q => if q = initproc then 1 else 0
      parent := fun _ => none
      locks := fun _ => none
      noff := fun _ => 0
      nextpid := 2
      pipe := ⟨fun _ => 0, 0, 0, true, true⟩
      cons := ⟨fun _ => 0, 0, 0, 0⟩
      ticks := 0
      oracle := oracle
      sleep := fun _ => none
      sleeps := fun _ => 0
      roused := fun _ => 0
      waking := fun _ => []
      woke := []
      nuid := 1
      uid := fun _ => 0
      forker := fun _ => 0
      exited := fun _ => none
      reaped := []
      tested := fun _ => none
      owes := fun _ => false
      events := [.alloc initproc]
      nwrites := 0
      write := fun _ => 0
      slept := fun _ => false
      put := []
      taken := [] }
  prog := fun _ => none

/-- The states that the processes and interrupts can reach. -/
abbrev Runs (N : ℕ) (care : Care) (oracle : List Bool) : Conf PSig State → Prop :=
  Conf.Reachable (State.exec N care) (Start N care) (boot oracle)

end Xv6.Proc
