import Xv6.Fs.Prog

/-!
# The state of the kernel

What the calls on paths, `fork` and `exec` share: the inodes on disk, the inode table, the file table
and the process table.  An operation is what the code does under one spin lock, on an inode it has
locked, or on data of the calling process.
-/

namespace Xv6.Sys

open Function

open Fs (Name)

/-- The fields of an inode that are on disk, without its contents. -/
structure Attr where
  type : BitVec 16
  major : BitVec 16
  minor : BitVec 16
  nlink : BitVec 16
  deriving DecidableEq

/-- An entry of a directory; it is free if its inode number is zero. -/
structure Dent where
  inum : ℕ
  name : Name

/-- An inode on disk, with its entries if it is a directory and its bytes otherwise. -/
structure Dinode where
  attr : Attr
  dents : List Dent
  data : List Byte

def Dinode.bytes (d : Dinode) : List Byte :=
  if d.attr.type = T_DIR then d.dents.flatMap fun e => List.ofFn (Fs.Dirent.make e.inum e.name)
  else d.data

/-- The bytes that `readi` copies from a file with the contents `bytes`. -/
def readBytes (bytes : List Byte) (off n : ℕ) : List Byte :=
  if bytes.length < off ∨ (off + n) % 2 ^ 32 < off then [] else (bytes.drop off).take n

/-- A slot of the inode table. -/
structure Slot where
  dev : ℕ
  inum : ℕ
  ref : ℕ
  lock : Option ℕ
  valid : Bool
  attr : Attr

inductive FdType where
  | none
  | pipe
  | inode
  | device
  deriving DecidableEq

/-- `struct file`. -/
structure File where
  type : FdType
  ref : ℕ
  readable : Bool
  writable : Bool
  pipe : ℕ
  ip : ℕ
  major : BitVec 16

/-- The states of a process that matter for its files. -/
inductive ProcState where
  | unused
  | used
  | runnable
  | zombie
  deriving DecidableEq

/-- The fields of `struct proc` that the calls on files use. -/
structure Proc where
  state : ProcState
  parent : Option ℕ
  ofile : ℕ → Option ℕ
  cwd : Option ℕ

/-- The state that the system calls share. -/
structure KState where
  disk : ℕ → Dinode
  itable : ℕ → Slot
  ftable : ℕ → File
  procs : ℕ → Proc
  outstanding : ℕ

namespace KState

variable (s : KState)

def setSlot (i : ℕ) (x : Slot) : KState := { s with itable := update s.itable i x }

def setDisk (i : ℕ) (x : Dinode) : KState := { s with disk := update s.disk i x }

def setFile (f : ℕ) (x : File) : KState := { s with ftable := update s.ftable f x }

def setProc (p : ℕ) (x : Proc) : KState := { s with procs := update s.procs p x }

end KState

/-! ## Inodes and directories -/

/-- The operations on inodes. -/
inductive DiskOp where
  /-- `ilock`: read a locked inode from disk if it is not valid. -/
  | load (ip : ℕ)
  | get (ip : ℕ)
  /-- Set the fields of an inode and copy them to disk. -/
  | iupdate (ip : ℕ) (a : Attr)
  /-- `itrunc`: discard the contents of an inode. -/
  | itrunc (ip : ℕ)
  /-- `iput`: mark an inode as not read from disk. -/
  | invalidate (ip : ℕ)
  /-- `dirlookup`: the inode number and the index of the entry for `name`. -/
  | lookup (dp : ℕ) (name : Name)
  /-- `readi` to kernel memory: the bytes that it copies. -/
  | readi (ip off n : ℕ)

namespace DiskOp

@[reducible] def Res : DiskOp → Type
  | load _ | iupdate .. | itrunc _ | invalidate _ => Unit
  | get _ => Slot
  | lookup .. => Option (ℕ × ℕ)
  | readi .. => List Byte

/-- The entries of the directory in slot `dp`. -/
def dents (s : KState) (dp : ℕ) : List Dent := (s.disk (s.itable dp).inum).dents

def find (dents : List Dent) (name : Name) : Option ℕ :=
  dents.findIdx? fun e => e.inum ≠ 0 && Fs.namecmp name e.name

def exec : (o : DiskOp) → KState → Except (Halt Panic) (o.Res × KState)
  | load ip, s =>
      let x := s.itable ip
      if x.valid then .ok ((), s)
      else if (s.disk x.inum).attr.type = 0 then .error (.panic .ilockNoType)
      else .ok ((), s.setSlot ip { x with valid := true, attr := (s.disk x.inum).attr })
  | get ip, s => .ok (s.itable ip, s)
  | iupdate ip a, s =>
      let x := s.itable ip
      .ok ((), (s.setSlot ip { x with attr := a }).setDisk x.inum { s.disk x.inum with attr := a })
  | itrunc ip, s =>
      .ok ((), s.setDisk (s.itable ip).inum ⟨(s.itable ip).attr, [], []⟩)
  | invalidate ip, s => .ok ((), s.setSlot ip { s.itable ip with valid := false })
  | lookup dp name, s =>
      if (s.itable dp).attr.type = T_DIR then
        .ok ((find (dents s dp) name).map fun k => (((dents s dp).map Dent.inum).getD k 0, k), s)
      else .error (.panic .dirlookupNotDir)
  | readi ip off n, s => .ok (readBytes (s.disk (s.itable ip).inum).bytes off n, s)

end DiskOp

/-! ## Tables -/

/-- The atomic steps of the calls on files. -/
inductive KOp where
  | disk (o : DiskOp)
  | panic (e : Panic)
  | iget (dev inum : ℕ)
  /-- `idup(myproc()->cwd)` -/
  | idupCwd
  /-- `ilock`: lock the inode. -/
  | acquiresleep (ip : ℕ)
  | iunlock (ip : ℕ)
  /-- `iput` up to the truncation: drop the reference, or lock the inode if it has to be freed. -/
  | iputStart (ip : ℕ)
  /-- `iput`: unlock the freed inode. -/
  | releasesleep (ip : ℕ)
  /-- `iput`: drop the reference to the freed inode. -/
  | derefer (ip : ℕ)
  | beginOp
  | endOp
  | filedup (f : ℕ)
  | ofile (fd : ℕ)
  | freeproc (np : ℕ)
  /-- `np->ofile[fd] = f` -/
  | childFd (np fd f : ℕ)
  /-- `np->cwd = ip` -/
  | childCwd (np ip : ℕ)
  /-- `np->parent = p; np->state = RUNNABLE` -/
  | startChild (np : ℕ)

@[reducible] def KOp.Res : KOp → Type
  | disk o => o.Res
  | panic _ => Empty
  | iget .. | idupCwd => ℕ
  | iputStart _ => Bool
  | ofile _ => Option ℕ
  | acquiresleep _ | iunlock _ | releasesleep _ | derefer _ | beginOp | endOp | filedup _
  | freeproc _ | childFd .. | childCwd .. | startChild _ => Unit

abbrev KSig : Sig := ⟨KOp, KOp.Res⟩

abbrev KProg := Prog KSig

abbrev atomic (o : KOp) : KProg o.Res := Prog.op o Prog.ret

namespace KState

def cached (s : KState) (dev inum : ℕ) : Option ℕ := (List.range NINODE).find? fun i =>
  0 < (s.itable i).ref && (s.itable i).dev == dev && (s.itable i).inum == inum

def freeSlot (s : KState) : Option ℕ := (List.range NINODE).find? fun i => (s.itable i).ref == 0

def freeProc (s : KState) : Option ℕ :=
  (List.range NPROC).find? fun q => (s.procs q).state == .unused

def exec (p : ℕ) : Handler KSig KState Panic
  | .disk o, s => o.exec s
  | .panic e, _ => .error (.panic e)
  | .iget dev inum, s =>
      match s.cached dev inum with
      | some i => .ok (i, s.setSlot i { s.itable i with ref := (s.itable i).ref + 1 })
      | none =>
          match s.freeSlot with
          | some i =>
              .ok (i, s.setSlot i { s.itable i with dev := dev, inum := inum, ref := 1, valid := false })
          | none => .error (.panic .igetNoInodes)
  | .idupCwd, s =>
      match (s.procs p).cwd with
      | some i => .ok (i, s.setSlot i { s.itable i with ref := (s.itable i).ref + 1 })
      | none => .error (.panic .kerneltrap)
  | .acquiresleep i, s =>
      if (s.itable i).ref < 1 then .error (.panic .ilock)
      else if (s.itable i).lock = none then .ok ((), s.setSlot i { s.itable i with lock := some p })
      else .error .blocked
  | .iunlock i, s =>
      if (s.itable i).lock ≠ some p ∨ (s.itable i).ref < 1 then .error (.panic .iunlock)
      else .ok ((), s.setSlot i { s.itable i with lock := none })
  | .iputStart i, s =>
      let x := s.itable i
      if x.ref = 1 ∧ x.valid = true ∧ x.attr.nlink = 0 then
        if x.lock = none then .ok (true, s.setSlot i { x with lock := some p })
        else .error .blocked
      else .ok (false, s.setSlot i { x with ref := x.ref - 1 })
  | .releasesleep i, s => .ok ((), s.setSlot i { s.itable i with lock := none })
  | .derefer i, s => .ok ((), s.setSlot i { s.itable i with ref := (s.itable i).ref - 1 })
  | .beginOp, s => .ok ((), { s with outstanding := s.outstanding + 1 })
  | .endOp, s => .ok ((), { s with outstanding := s.outstanding - 1 })
  | .filedup f, s =>
      if (s.ftable f).ref < 1 then .error (.panic .filedup)
      else .ok ((), s.setFile f { s.ftable f with ref := (s.ftable f).ref + 1 })
  | .ofile fd, s => .ok (if fd < NOFILE then (s.procs p).ofile fd else none, s)
  | .freeproc np, s => .ok ((), s.setProc np { s.procs np with parent := none, state := .unused })
  | .childFd np fd f, s =>
      .ok ((), s.setProc np { s.procs np with
        ofile := update (s.procs np).ofile fd (some f) })
  | .childCwd np i, s => .ok ((), s.setProc np { s.procs np with cwd := some i })
  | .startChild np, s =>
      .ok ((), s.setProc np { s.procs np with parent := some p, state := .runnable })

end KState

end Xv6.Sys
