import Xv6.Task.Machine

/-!
# `fork` and `exec`

The functions of `proc.c` and `exec.c` that create a process and replace its user program.  The
registers of a trapframe are the words of its page.
-/

namespace Xv6.Task

open Sys Vm

abbrev EPC : ℕ := 3
abbrev SP : ℕ := 6
abbrev A0 : ℕ := 14
abbrev A1 : ℕ := 15
abbrev NREG : ℕ := 36

section

variable (ram : Ram)

/-! ## Creating a process -/

def freeproc (np : ℕ) : TProg Unit := do
  let x ← act (.image np)
  (if x.trapframe ≠ 0 then vm (mem (.kfree x.trapframe)) else pure ())
  (if x.pagetable ≠ 0 then vm (procFreepagetable x.pagetable x.sz) else pure ())
  act (.update np fun _ => .blank)
  sys (Sys.atomic (.freeproc np))

def allocproc : TProg (Option ℕ) := do
  match ← act .findProc with
  | none => pure none
  | some np =>
      let pid ← act .allocpid
      act (.update np fun x => { x with pid := pid })
      let trapframe ← vm (mem .kalloc)
      act (.update np fun x => { x with trapframe := trapframe.getD 0 })
      match trapframe with
      | none =>
          freeproc np
          pure none
      | some trapframe =>
          let pagetable ← vm (procPagetable ram trapframe)
          act (.update np fun x => { x with pagetable := pagetable.getD 0 })
          match pagetable with
          | none =>
              freeproc np
              pure none
          | some _ => pure (some np)

def dupFd (np i : ℕ) : KProg Unit := do
  match ← Sys.atomic (.ofile i) with
  | none => pure ()
  | some f =>
      Sys.atomic (.filedup f)
      Sys.atomic (.childFd np i f)

/-- The part of `fork` that increments the reference counts of open files and of the directory. -/
def dupFiles (np : ℕ) : KProg Unit := do
  Prog.loop (dupFd np) 0 NOFILE
  let cwd ← Sys.atomic .idupCwd
  Sys.atomic (.childCwd np cwd)

def safestrcpy (name : List Byte) : List Byte := name.take 15

/-- The end of `fork`: copy the registers, the files and the name to the process `np` with fields `y`.
-/
def forkChild (np : ℕ) (x y : Image) : TProg (BitVec 32) := do
  act (.update np fun y => { y with sz := x.sz })
  let regs ← vm (mem (.read x.trapframe 0 (8 * NREG)))
  vm (mem (.write y.trapframe 0 regs))
  vm (mem (.store y.trapframe A0 0))
  sys (dupFiles np)
  act (.update np fun y => { y with name := safestrcpy x.name })
  sys (Sys.atomic (.startChild np))
  pure y.pid

/-- `fork()`. -/
def fork : TProg (BitVec 32) := do
  let p ← act .myproc
  match ← allocproc ram with
  | none => pure (-1)
  | some np =>
      let x ← act (.image p)
      let y ← act (.image np)
      if ← vm (uvmcopy x.pagetable y.pagetable x.sz) then forkChild np x y
      else
        freeproc np
        pure (-1)

/-! ## Executable files -/

def number (bytes : List Byte) (off : ℕ) : (k : ℕ) → ℕ
  | 0 => 0
  | k + 1 => (bytes.getD off 0).toNat + 256 * number bytes (off + 1) k

/-- The fields of `struct elfhdr` that `exec` uses. -/
structure Elfhdr where
  magic : ℕ
  entry : ℕ
  phoff : ℕ
  phnum : ℕ

abbrev ELFHDR : ℕ := 64

def Elfhdr.ofBytes (bytes : List Byte) : Elfhdr where
  magic := number bytes 0 4
  entry := number bytes 24 8
  phoff := number bytes 32 8
  phnum := number bytes 56 2

abbrev ELF_MAGIC : ℕ := 0x464C457F

/-- The fields of `struct proghdr` that `exec` uses. -/
structure Proghdr where
  type : ℕ
  flags : ℕ
  off : ℕ
  vaddr : ℕ
  filesz : ℕ
  memsz : ℕ

abbrev PROGHDR : ℕ := 56

def Proghdr.ofBytes (bytes : List Byte) : Proghdr where
  type := number bytes 0 4
  flags := number bytes 4 4
  off := number bytes 8 8
  vaddr := number bytes 16 8
  filesz := number bytes 32 8
  memsz := number bytes 40 8

abbrev ELF_PROG_LOAD : ℕ := 1

def flags2perm (flags : ℕ) : Flags :=
  let perm := if flags % 2 = 1 then PTE_X else 0
  if flags / 2 % 2 = 1 then perm ||| PTE_W else perm

/-! ## Loading a program -/

/-- The loop of `loadseg` from `i`; `k` bounds the number of rounds that are left. -/
def loadsegFrom (pagetable va ip offset sz : ℕ) : (k i : ℕ) → TProg Bool
  | 0, _ => vm (.op .deeper nofun)
  | k + 1, i =>
      if i < sz then do
        let pa ← vm (walkaddr pagetable ((va + i) % 2 ^ 64))
        if pa = 0 then vm (Vm.panic .loadsegAddress)
        else
          let n := if sz - i < PGSIZE then sz - i else PGSIZE
          let bytes ← sys (disk (.readi ip ((offset + i) % 2 ^ 32) n))
          vm (mem (.write pa 0 bytes))
          if bytes.length ≠ n then pure false
          else loadsegFrom pagetable va ip offset sz k ((i + PGSIZE) % 2 ^ 32)
      else pure true

def loadseg (pagetable va ip offset sz : ℕ) : TProg Bool :=
  loadsegFrom pagetable va ip offset sz (sz / PGSIZE + 2) 0

/-- The loop of `exec` over the program headers when `n` are left, the next one at `off`: the size of
the address space, and false where the code goes to `bad`. -/
def loadFrom (ip pagetable : ℕ) : (n off sz : ℕ) → TProg (Bool × ℕ)
  | 0, _, sz => pure (true, sz)
  | n + 1, off, sz => do
      let bytes ← sys (disk (.readi ip off PROGHDR))
      let ph := Proghdr.ofBytes bytes
      if bytes.length ≠ PROGHDR then pure (false, sz)
      else if ph.type ≠ ELF_PROG_LOAD then loadFrom ip pagetable n ((off + PROGHDR) % 2 ^ 32) sz
      else if ph.memsz < ph.filesz then pure (false, sz)
      else if (ph.vaddr + ph.memsz) % 2 ^ 64 < ph.vaddr then pure (false, sz)
      else if ph.vaddr % PGSIZE ≠ 0 then pure (false, sz)
      else
        let sz1 ← vm (uvmalloc pagetable sz ((ph.vaddr + ph.memsz) % 2 ^ 64) (flags2perm ph.flags))
        if sz1 = 0 then pure (false, sz)
        else if ← loadseg pagetable ph.vaddr ip (ph.off % 2 ^ 32) (ph.filesz % 2 ^ 32) then
          loadFrom ip pagetable n ((off + PROGHDR) % 2 ^ 32) sz1
        else pure (false, sz1)

/-! ## The arguments -/

/-- The stack pointer after `n` bytes have been pushed, aligned to 16 bytes. -/
def push (sp n : ℕ) : ℕ :=
  let sp := (sp + 2 ^ 64 - n) % 2 ^ 64
  sp - sp % 16

/-- Push argument strings; returns their addresses and the stack pointer, or `none` where the code
goes to `bad`. -/
def pushStrings (pagetable stackbase : ℕ) :
    (argv : List (List Byte)) → (ustack : List ℕ) → (sp : ℕ) → MProg (Option (List ℕ × ℕ))
  | [], ustack, sp => pure (some (ustack, sp))
  | arg :: argv, ustack, sp =>
      if MAXARG ≤ ustack.length then pure none
      else
        let sp := push sp (arg.length + 1)
        if sp < stackbase then pure none
        else do
          if ← copyout pagetable sp (arg ++ [0]) then
            pushStrings pagetable stackbase argv (ustack ++ [sp]) sp
          else pure none

def wordBytes (words : List ℕ) : List Byte :=
  words.flatMap fun w => (List.range 8).map fun i => BitVec.ofNat 8 (w / 2 ^ (8 * i))

/-- Push argument strings and the array of pointers to them; returns the number of arguments and the
stack pointer. -/
def pushArgs (pagetable stackbase : ℕ) (argv : List (List Byte)) (sp : ℕ) :
    MProg (Option (ℕ × ℕ)) := do
  match ← pushStrings pagetable stackbase argv [] sp with
  | none => pure none
  | some (ustack, sp) =>
      let sp := push sp ((ustack.length + 1) * 8)
      if sp < stackbase then pure none
      else if ← copyout pagetable sp (wordBytes (ustack ++ [0])) then
        pure (some (ustack.length, sp))
      else pure none

/-! ## Replacing the user program -/

/-- What `exec` commits to: the new address space with its size, the program counter, the number of
arguments and the stack pointer. -/
structure NewImage where
  entry : ℕ
  pagetable : ℕ
  sz : ℕ
  argc : ℕ
  sp : ℕ

def execBad (pagetable sz : ℕ) (ip : Option ℕ) : TProg (Option NewImage) := do
  (if pagetable ≠ 0 then vm (procFreepagetable pagetable sz) else pure ())
  match ip with
  | none => pure none
  | some ip =>
      sys (iunlockput ip)
      sys (Sys.atomic .endOp)
      pure none

/-- The part of `exec` after the segments have been loaded: the stack and the arguments. -/
def execStack (argv : List (List Byte)) (entry pagetable sz : ℕ) :
    TProg (Option NewImage) := do
  let sz := pgroundup sz
  let sz1 ← vm (uvmalloc pagetable sz ((sz + 2 * PGSIZE) % 2 ^ 64) PTE_W)
  if sz1 = 0 then execBad pagetable sz none
  else
    vm (uvmclear pagetable (sz1 - 2 * PGSIZE))
    match ← vm (pushArgs pagetable (sz1 - PGSIZE) argv sz1) with
    | none => execBad pagetable sz1 none
    | some (argc, sp) => pure (some ⟨entry, pagetable, sz1, argc, sp⟩)

def execLoad (argv : List (List Byte)) (ip : ℕ) : TProg (Option NewImage) := do
  let header ← sys (disk (.readi ip 0 ELFHDR))
  let elf := Elfhdr.ofBytes header
  if header.length ≠ ELFHDR then execBad 0 0 (some ip)
  else if elf.magic ≠ ELF_MAGIC then execBad 0 0 (some ip)
  else
    let p ← act .myproc
    let x ← act (.image p)
    match ← vm (procPagetable ram x.trapframe) with
    | none => execBad 0 0 (some ip)
    | some pagetable =>
        let loaded ← loadFrom ip pagetable elf.phnum (elf.phoff % 2 ^ 32) 0
        if loaded.1 then
          sys (iunlockput ip)
          sys (Sys.atomic .endOp)
          execStack argv elf.entry pagetable loaded.2
        else execBad pagetable loaded.2 (some ip)

/-- `exec` up to the point at which it changes the process. -/
def execBuild (path : Path) (argv : List (List Byte)) : TProg (Option NewImage) := do
  sys (Sys.atomic .beginOp)
  match ← sys (namex path false) with
  | none =>
      sys (Sys.atomic .endOp)
      pure none
  | some (ip, _) =>
      sys (ilock ip)
      execLoad ram argv ip

/-- The program name: the path after its last slash. -/
def programName (path : Path) : List Byte :=
  safestrcpy (path.reverse.takeWhile (· ≠ slash)).reverse

def execCommit (path : Path) (x' : NewImage) : TProg (Option ℕ) := do
  let p ← act .myproc
  let x ← act (.image p)
  vm (mem (.store x.trapframe A1 (BitVec.ofNat 64 x'.sp)))
  act (.update p fun x => { x with name := programName path })
  act (.update p fun x => { x with pagetable := x'.pagetable, sz := x'.sz })
  vm (mem (.store x.trapframe EPC (BitVec.ofNat 64 x'.entry)))
  vm (mem (.store x.trapframe SP (BitVec.ofNat 64 x'.sp)))
  vm (procFreepagetable x.pagetable x.sz)
  pure (some x'.argc)

/-- `exec(path, argv)`. -/
def exec (path : Path) (argv : List (List Byte)) : TProg (Option ℕ) := do
  match ← execBuild ram path argv with
  | none => pure none
  | some x' => execCommit path x'

end

end Xv6.Task
