import Xv6.Fs.Prog
import Xv6.Lib.Crash

/-!
# The image builder

The program `mkfs.c`, which writes a file system with the given files to an image file.  Its functions
are programs over the image file and the counters `freeinode` and `freeblock`.
-/

namespace Xv6.Mkfs

open Fs (Name Dirent)

/-- The layout that `mkfs` writes. -/
abbrev L : Layout := .mkfs

abbrev NINODES : ℕ := 200

abbrev nbitmap : ℕ := FSSIZE / (BSIZE * 8) + 1

abbrev ninodeblocks : ℕ := NINODES / IPB + 1

abbrev nmeta : ℕ := 2 + LOGSIZE + ninodeblocks + nbitmap

abbrev nblocks : ℕ := FSSIZE - nmeta

abbrev FSMAGIC : ℕ := 0x10203040

/-- The ends of `mkfs` with an error. -/
inductive Failure where
  /-- `die("read")` in `rsect` -/
  | read
  /-- `die(argv[i])` for a file that cannot be opened -/
  | argv (path : List Byte)
  /-- `assert(rootino == ROOTINO)` -/
  | rootino
  /-- `assert(index(shortname, '/') == 0)` -/
  | shortname
  /-- `assert(fbn < MAXFILE)` -/
  | fbn
  /-- `assert(used < BSIZE*8)` -/
  | used

/-- The image file and the variables of `mkfs`. -/
structure Image where
  sects : ℕ → Block
  /-- The length of the file in sectors; what was never written below it is zero. -/
  length : ℕ
  freeinode : ℕ
  freeblock : ℕ

/-- The operations of `mkfs` on the image. -/
inductive MkOp where
  | rsect (sec : ℕ)
  | wsect (sec : ℕ) (d : Block)
  /-- `freeinode++` -/
  | nextInode
  /-- `freeblock++` -/
  | nextBlock
  | getFreeblock
  | fail (e : Failure)

def MkSig : Sig where
  Op := MkOp
  Res
    | .rsect _ => Block
    | .wsect _ _ => Unit
    | .nextInode => ℕ
    | .nextBlock => ℕ
    | .getFreeblock => ℕ
    | .fail _ => Empty

abbrev MkProg := Prog MkSig

/-- The sector at the offset `sec * BSIZE`, which is computed with 32 bits. -/
def sector (sec : ℕ) : ℕ := sec * BSIZE % 2 ^ 32 / BSIZE

/-- One operation.  The image file can be written everywhere and read up to its end. -/
def Image.exec : Handler MkSig Image Failure
  | .rsect sec, s =>
      if sector sec < s.length then .ok (s.sects (sector sec), s) else .error (.panic .read)
  | .wsect sec d, s =>
      .ok ((), { s with
        sects := Function.update s.sects (sector sec) d
        length := max s.length (sector sec + 1) })
  | .nextInode, s => .ok (s.freeinode, { s with freeinode := s.freeinode + 1 })
  | .nextBlock, s => .ok (s.freeblock, { s with freeblock := s.freeblock + 1 })
  | .getFreeblock, s => .ok (s.freeblock, s)
  | .fail e, _ => .error (.panic e)

def rsect (sec : ℕ) : MkProg Block := Prog.perform (S := MkSig) (.rsect sec)

def wsect (sec : ℕ) (d : Block) : MkProg Unit := Prog.perform (S := MkSig) (.wsect sec d)

def nextInode : MkProg ℕ := Prog.perform (S := MkSig) .nextInode

def nextBlock : MkProg ℕ := Prog.perform (S := MkSig) .nextBlock

def getFreeblock : MkProg ℕ := Prog.perform (S := MkSig) .getFreeblock

def fail {α : Type} (e : Failure) : MkProg α := .op (S := MkSig) (.fail e) Empty.elim

def assert (c : Prop) [Decidable c] (e : Failure) : MkProg Unit := if c then pure () else fail e

/-! ## Inodes and blocks -/

def winode (ip : Inode) : MkProg Unit := do
  let d ← rsect (L.iblock ip.inum)
  wsect (L.iblock ip.inum) (ip.encode d)

def rinode (inum : ℕ) : MkProg Inode := do
  let d ← rsect (L.iblock inum)
  pure (Inode.decode inum d)

def newInode (inum : ℕ) (type : BitVec 16) : Inode := { Inode.fresh inum type with nlink := 1 }

def ialloc (type : BitVec 16) : MkProg ℕ := do
  let inum ← nextInode
  winode (newInode inum type)
  pure inum

def bitmap (used : ℕ) : Block := (List.range used).foldl (fun d i => d.setBit i true) fun _ => 0

def balloc (used : ℕ) : MkProg Unit := do
  assert (used < BSIZE * 8) .used
  wsect L.bmapstart (bitmap used)

/-! ## File contents -/

def iappendAddr (din : Inode) (k : ℕ) : MkProg Inode :=
  if din.addr k = 0 then do
    let b ← nextBlock
    pure (din.setAddr k b)
  else pure din

/-- Give the entry `j` of the indirect block `b` a block if it has none.  Returns the entry. -/
def iappendEntry (b j : ℕ) : MkProg ℕ := do
  let indirect ← rsect b
  if indirect.word (4 * j) 4 = 0 then
    let new ← nextBlock
    let indirect := indirect.setWord (4 * j) 4 (BitVec.ofNat 32 new)
    wsect b indirect
    pure (indirect.word (4 * j) 4).toNat
  else pure (indirect.word (4 * j) 4).toNat

/-- The sector of block `fbn` of a file, which is allocated if there is none. -/
def iappendBlock (din : Inode) (fbn : ℕ) : MkProg (ℕ × Inode) :=
  if fbn < NDIRECT then do
    let din ← iappendAddr din fbn
    pure (din.addr fbn, din)
  else do
    let din ← iappendAddr din NDIRECT
    let x ← iappendEntry (din.addr NDIRECT) (fbn - NDIRECT)
    pure (x, din)

/-- The loop of `iappend`: `p` is left to be appended at `off`; `k` bounds the number of blocks that
are left. -/
def iappendFrom : (k : ℕ) → Inode → (off : ℕ) → (p : List Byte) → MkProg (ℕ × Inode)
  | 0, din, off, _ => pure (off, din)
  | k + 1, din, off, p =>
      if p = [] then pure (off, din)
      else do
        assert (off / BSIZE < MAXFILE) .fbn
        let (x, din) ← iappendBlock din (off / BSIZE)
        let n1 := min p.length ((off / BSIZE + 1) * BSIZE - off)
        let buf ← rsect x
        wsect x (buf.blit (off - off / BSIZE * BSIZE) n1 fun i => p.getD i 0)
        iappendFrom k din (off + n1) (p.drop n1)

def iappend (inum : ℕ) (p : List Byte) : MkProg Unit := do
  let din ← rinode inum
  let (off, din) ← iappendFrom p.length din din.size.toNat p
  winode { din with size := BitVec.ofNat 32 off }

/-! ## The main program -/

/-- An argument: the path of a file and what the calls of `read` on it return before the end of the
file or an error, or `none` if the file cannot be opened. -/
structure Arg where
  path : List Byte
  reads : Option (List (List Byte))
  path_ne : ∀ c ∈ path, c ≠ 0
  reads_le : ∀ chunks ∈ reads, ∀ buf ∈ chunks, buf ≠ [] ∧ buf.length ≤ BSIZE

namespace Arg

def user : List Byte := [117, 115, 101, 114, 47]

def shortname (a : Arg) : List Byte :=
  if a.path.take 5 = user then a.path.drop 5 else a.path

/-- The name in the root directory: one leading `_` is skipped. -/
def name (a : Arg) : List Byte :=
  if a.shortname.head? = some 95 then a.shortname.drop 1 else a.shortname

def contents (a : Arg) : List Byte := (a.reads.getD []).flatten

end Arg

def dirent (inum : ℕ) (name : Name) : List Byte :=
  (List.range DIRENT).map (Dirent.make inum name).byte

def iappendAll (inum : ℕ) : List (List Byte) → MkProg Unit
  | [] => pure ()
  | buf :: reads => do
      iappend inum buf
      iappendAll inum reads

def addFile (rootino : ℕ) (a : Arg) : MkProg Unit := do
  assert (47 ∉ a.shortname) .shortname
  match a.reads with
  | none => fail (.argv a.path)
  | some reads =>
      let inum ← ialloc T_FILE
      iappend rootino (dirent inum (Name.ofChars a.name))
      iappendAll inum reads

def addFiles (rootino : ℕ) : List Arg → MkProg Unit
  | [] => pure ()
  | a :: args => do
      addFile rootino a
      addFiles rootino args

def rounded (din : Inode) : Inode :=
  { din with size := BitVec.ofNat 32 ((din.size.toNat / BSIZE + 1) * BSIZE) }

def fixSize (rootino : ℕ) : MkProg Unit := do
  let din ← rinode rootino
  winode (rounded din)

def superblock : List ℕ :=
  [FSMAGIC, FSSIZE, nblocks, NINODES, LOGSIZE, 2, 2 + LOGSIZE, 2 + LOGSIZE + ninodeblocks]

/-- The block of the super block: the first words are its fields. -/
def superblockSect : Block := fun i =>
  (BitVec.ofNat 32 (superblock.getD (i / 4) 0)).extractLsb' (8 * (i % 4)) 8

/-- The super block and the root directory. -/
def writeRoot : MkProg ℕ := do
  wsect 1 superblockSect
  let rootino ← ialloc T_DIR
  assert (rootino = ROOTINO) .rootino
  iappend rootino (dirent rootino Fs.dot)
  iappend rootino (dirent rootino Fs.dotdot)
  pure rootino

def makeRoot : MkProg ℕ := do
  Prog.loop (fun i => wsect i fun _ => 0) 0 FSSIZE
  writeRoot

/-- The files, the size of the root directory and the bitmap. -/
def writeFiles (args : List Arg) (rootino : ℕ) : MkProg Unit := do
  addFiles rootino args
  fixSize rootino
  let used ← getFreeblock
  balloc used

def main (args : List Arg) : MkProg Unit := do
  let rootino ← makeRoot
  writeFiles args rootino

def start : Image := ⟨fun _ _ => 0, 0, 1, nmeta⟩

def exits (x : MkProg Unit) : Option Image :=
  match x.run Image.exec start with
  | (.ok _, s) => some s
  | (.error _, _) => none

/-- The image that `mkfs` leaves when it runs to `exit(0)`. -/
def mkfs (args : List Arg) : Option Image := exits (main args)

end Xv6.Mkfs
