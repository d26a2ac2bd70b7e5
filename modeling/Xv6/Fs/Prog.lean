import Xv6.Fs.Layout
import Xv6.Lib.Prog

/-!
# The file system

The functions of `fs.c` on blocks, inodes, files and directories, as programs over the buffers of
`bio.c` and `log.c`.  A buffer is named by its block, which is locked between `bread` and `brelse`.  An
in-memory inode is passed to a function and returned with its changes.
-/

namespace Xv6.Fs

/-- The operations on the buffer cache. -/
inductive FsOp where
  | bread (b : ℕ)
  | bset (b : ℕ) (d : Block)
  | logWrite (b : ℕ)
  | brelse (b : ℕ)
  | panic (e : Panic)

/-- The operations on the disk and their results. -/
def FsSig : Sig where
  Op := FsOp
  Res
    | .bread _ => Block
    | .panic _ => Empty
    | _ => Unit

abbrev FsProg := Prog FsSig

def bread (b : ℕ) : FsProg Block := Prog.perform (S := FsSig) (.bread b)

def bset (b : ℕ) (d : Block) : FsProg Unit := Prog.perform (S := FsSig) (.bset b d)

def logWrite (b : ℕ) : FsProg Unit := Prog.perform (S := FsSig) (.logWrite b)

def brelse (b : ℕ) : FsProg Unit := Prog.perform (S := FsSig) (.brelse b)

def panic {α : Type} (e : Panic) : FsProg α := .op (S := FsSig) (.panic e) Empty.elim

/-! ## Blocks -/

def bzero (b : ℕ) : FsProg Unit := do
  let _ ← bread b
  bset b fun _ => 0
  logWrite b
  brelse b

/-- The first clear bit among the first `n` bits of a bitmap block. -/
def firstClear (d : Block) (n : ℕ) : Option ℕ := (List.range n).find? fun bi => !d.bit bi

/-- The search of `balloc` from bit `b`; `k` bounds the number of bitmap blocks that are left. -/
def ballocFrom (L : Layout) : (k b : ℕ) → FsProg ℕ
  | 0, _ => pure 0
  | k + 1, b =>
      if b < L.size then do
        let d ← bread (L.bblock b)
        match firstClear d (min BPB (L.size - b)) with
        | some bi =>
            bset (L.bblock b) (d.setBit bi true)
            logWrite (L.bblock b)
            brelse (L.bblock b)
            bzero (b + bi)
            pure (b + bi)
        | none =>
            brelse (L.bblock b)
            ballocFrom L k (b + BPB)
      else pure 0

def balloc (L : Layout) : FsProg ℕ := ballocFrom L (L.size / BPB + 1) 0

def bfree (L : Layout) (b : ℕ) : FsProg Unit := do
  let d ← bread (L.bblock b)
  if d.bit (b % BPB) then
    bset (L.bblock b) (d.setBit (b % BPB) false)
    logWrite (L.bblock b)
    brelse (L.bblock b)
  else panic .freeingFreeBlock

/-! ## Inodes -/

def iupdate (L : Layout) (ip : Inode) : FsProg Unit := do
  let d ← bread (L.iblock ip.inum)
  bset (L.iblock ip.inum) (ip.encode d)
  logWrite (L.iblock ip.inum)
  brelse (L.iblock ip.inum)

/-- The in-memory inode after `ilock`; `cached` is its copy if it is valid. -/
def ilock (L : Layout) (cached : Option Inode) (inum : ℕ) : FsProg Inode :=
  match cached with
  | some ip => pure ip
  | none => do
      let d ← bread (L.iblock inum)
      brelse (L.iblock inum)
      if (Inode.decode inum d).type = 0 then panic .ilockNoType
      else pure (Inode.decode inum d)

/-- The search of `ialloc` from inode `inum`; `k` bounds the number of inodes that are left. -/
def iallocFrom (L : Layout) (type : BitVec 16) : (k inum : ℕ) → FsProg (Option ℕ)
  | 0, _ => pure none
  | k + 1, inum =>
      if inum < L.ninodes then do
        let d ← bread (L.iblock inum)
        if (Inode.decode inum d).type = 0 then
          bset (L.iblock inum) ((Inode.fresh inum type).encode d)
          logWrite (L.iblock inum)
          brelse (L.iblock inum)
          pure (some inum)
        else
          brelse (L.iblock inum)
          iallocFrom L type k (inum + 1)
      else pure none

def ialloc (L : Layout) (type : BitVec 16) : FsProg (Option ℕ) := iallocFrom L type L.ninodes 1

/-! ## Inode content -/

/-- `addrs[k]`, allocating a block if it is zero.  Returns 0 if out of disk space. -/
def bmapAddr (L : Layout) (ip : Inode) (k : ℕ) : FsProg (ℕ × Inode) :=
  if ip.addr k = 0 then do
    let addr ← balloc L
    if addr = 0 then pure (0, ip)
    else pure (addr, ip.setAddr k addr)
  else pure (ip.addr k, ip)

/-- Entry `j` of the indirect block `b`, allocating a block if it is zero. -/
def bmapEntry (L : Layout) (b j : ℕ) : FsProg ℕ := do
  let d ← bread b
  if d.word (4 * j) 4 = 0 then
    let addr ← balloc L
    if addr = 0 then
      brelse b
      pure 0
    else
      bset b (d.setWord (4 * j) 4 (BitVec.ofNat 32 addr))
      logWrite b
      brelse b
      pure addr
  else
    brelse b
    pure (d.word (4 * j) 4).toNat

/-- `bmap`, which returns the block and the changed inode. -/
def bmap (L : Layout) (ip : Inode) (bn : ℕ) : FsProg (ℕ × Inode) :=
  if bn < NDIRECT then bmapAddr L ip bn
  else if bn - NDIRECT < NINDIRECT then do
    let (indirect, ip) ← bmapAddr L ip NDIRECT
    if indirect = 0 then pure (0, ip)
    else
      let addr ← bmapEntry L indirect (bn - NDIRECT)
      pure (addr, ip)
  else panic .bmapOutOfRange

def bfreeAddr (L : Layout) (b : ℕ) : FsProg Unit := if b = 0 then pure () else bfree L b

/-- Free the blocks of the indirect block `b`, then the indirect block. -/
def bfreeIndirect (L : Layout) (b : ℕ) : FsProg Unit :=
  if b = 0 then pure ()
  else do
    let d ← bread b
    Prog.loop (fun j => bfreeAddr L (d.word (4 * j) 4).toNat) 0 NINDIRECT
    brelse b
    bfree L b

def itrunc (L : Layout) (ip : Inode) : FsProg Inode := do
  Prog.loop (fun i => bfreeAddr L (ip.addr i)) 0 NDIRECT
  bfreeIndirect L (ip.addr NDIRECT)
  iupdate L ip.truncated
  pure ip.truncated

/-- Free an inode without links on disk, as `iput` does when it drops the last reference. -/
def ifree (L : Layout) (ip : Inode) : FsProg Unit := do
  let ip ← itrunc L ip
  iupdate L { ip with type := 0 }

/-- The loop of `readi`: `n` bytes are left, `data` has been copied out; `dst i` says whether byte `i`
can be stored, `k` bounds the blocks that are left. -/
def readiFrom (L : Layout) (dst : ℕ → Bool) :
    (k : ℕ) → Inode → (off n : ℕ) → List Byte → FsProg (Option (List Byte) × Inode)
  | 0, ip, _, _, data => pure (some data, ip)
  | k + 1, ip, off, n, data =>
      if n = 0 then pure (some data, ip)
      else do
        let (addr, ip) ← bmap L ip (off / BSIZE)
        if addr = 0 then pure (some data, ip)
        else
          let d ← bread addr
          let m := min n (BSIZE - off % BSIZE)
          brelse addr
          if (List.range m).all fun i => dst (data.length + i) then
            readiFrom L dst k ip (off + m) (n - m)
              (data ++ (List.range m).map fun i => d.byte (off % BSIZE + i))
          else pure (none, ip)

/-- Read data from an inode: the bytes that were copied out, or `none` where the code returns -1. -/
def readi (L : Layout) (ip : Inode) (dst : ℕ → Bool) (off n : BitVec 32) :
    FsProg (Option (List Byte) × Inode) :=
  if ip.size < off ∨ off + n < off then pure (some [], ip)
  else
    let n := if ip.size < off + n then ip.size - off else n
    readiFrom L dst n.toNat ip off.toNat n.toNat []

/-- The number of bytes that a copy of `m` bytes from `src` at `tot` transfers: it stops at the first
byte that is not mapped. -/
def copied (src : ℕ → Option Byte) (tot m : ℕ) : ℕ :=
  ((List.range m).find? fun i => (src (tot + i)).isNone).getD m

/-- `either_copyin` into block `b` at offset `o`: whether all of the `m` bytes were copied.  What a
failing copy has transferred stays in the buffer. -/
def eitherCopyin (b : ℕ) (d : Block) (o : ℕ) (src : ℕ → Option Byte) (tot m : ℕ) : FsProg Bool :=
  if copied src tot m = 0 then pure (m = 0)
  else do
    bset b (d.blit o (copied src tot m) fun i => (src (tot + i)).getD 0)
    pure (copied src tot m = m)

/-- The loop of `writei`: `n` bytes are left, `tot` have been written; `src i` is byte `i` if it is
mapped, `k` bounds the blocks that are left. -/
def writeiFrom (L : Layout) (src : ℕ → Option Byte) :
    (k : ℕ) → Inode → (off n tot : ℕ) → FsProg (ℕ × ℕ × Inode)
  | 0, ip, off, _, tot => pure (tot, off, ip)
  | k + 1, ip, off, n, tot =>
      if n = 0 then pure (tot, off, ip)
      else do
        let (addr, ip) ← bmap L ip (off / BSIZE)
        if addr = 0 then pure (tot, off, ip)
        else
          let d ← bread addr
          let m := min n (BSIZE - off % BSIZE)
          let ok ← eitherCopyin addr d (off % BSIZE) src tot m
          if ok then
            logWrite addr
            brelse addr
            writeiFrom L src k ip (off + m) (n - m) (tot + m)
          else
            brelse addr
            pure (tot, off, ip)

/-- Write data to an inode: the number of bytes written, or `none` where the code returns -1. -/
def writei (L : Layout) (ip : Inode) (src : ℕ → Option Byte) (off n : BitVec 32) :
    FsProg (Option ℕ × Inode) :=
  if ip.size < off ∨ off + n < off then pure (none, ip)
  else if MAXFILE * BSIZE < (off + n).toNat then pure (none, ip)
  else do
    let (tot, off, ip) ← writeiFrom L src n.toNat ip off.toNat n.toNat 0
    iupdate L (ip.extend off)
    pure (some tot, ip.extend off)

/-! ## Directories -/

/-- The name buffer of a path element; a zero byte ends a name that is shorter. -/
abbrev Name := Bytes DIRSIZ

abbrev Dirent := Bytes 16

def Dirent.inum (de : Dirent) : ℕ := (de.word 0 2).toNat

def Dirent.name (de : Dirent) : Name := fun i => de.byte (2 + i)

/-- Whether `strncmp` finds no difference in the `n` bytes from `i` on. -/
def strncmp (s t : Name) : (n i : ℕ) → Bool
  | 0, _ => true
  | n + 1, i => if s.byte i ≠ 0 ∧ s.byte i = t.byte i then strncmp s t n (i + 1)
      else s.byte i == t.byte i

def namecmp (s t : Name) : Bool := strncmp s t DIRSIZ 0

def strncpy (s : Name) : Name := fun i =>
  if (List.range i).any fun j => s.byte j == 0 then 0 else s.byte i

def Dirent.make (inum : ℕ) (name : Name) : Dirent := fun i =>
  if i.val < 2 then (BitVec.ofNat 16 inum).extractLsb' (8 * i) 8 else (strncpy name).byte (i - 2)

/-- The loops over the entries of a directory: the first entry with `P` from `off` on, and where the
loop stopped.  A short read panics with `e`; `k` bounds the entries that are left. -/
def dirscan (L : Layout) (e : Panic) (P : Dirent → Bool) :
    (k : ℕ) → Inode → (off : ℕ) → FsProg (ℕ × Option Dirent × Inode)
  | 0, dp, off => pure (off, none, dp)
  | k + 1, dp, off =>
      if off < dp.size.toNat then do
        let (r, dp) ← readi L dp (fun _ => true) (BitVec.ofNat 32 off) 16
        let data := r.getD []
        if data.length = 16 then
          let de : Dirent := fun i => data.getD i 0
          if P de then pure (off, some de, dp)
          else dirscan L e P k dp (off + 16)
        else panic e
      else pure (off, none, dp)

def dirlookup (L : Layout) (dp : Inode) (name : Name) : FsProg (Option (ℕ × ℕ) × Inode) :=
  if dp.type ≠ T_DIR then panic .dirlookupNotDir
  else do
    let (off, found, dp) ← dirscan L .dirlookupRead
      (fun de => de.inum ≠ 0 && namecmp name de.name) (dp.size.toNat / 16 + 1) dp 0
    pure (found.map fun de => (de.inum, off), dp)

def dirlink (L : Layout) (dp : Inode) (name : Name) (inum : ℕ) : FsProg (Bool × Inode) := do
  let (found, dp) ← dirlookup L dp name
  if found.isSome then pure (false, dp)
  else
    let (off, _, dp) ← dirscan L .dirlinkRead (fun de => de.inum = 0) (dp.size.toNat / 16 + 1) dp 0
    let (r, dp) ← writei L dp (fun i => some ((Dirent.make inum name).byte i))
      (BitVec.ofNat 32 off) 16
    pure (r = some 16, dp)

def Name.ofChars (cs : List Byte) : Name := fun i => cs.getD i 0

def dot : Name := Name.ofChars [46]

def dotdot : Name := Name.ofChars [46, 46]

/-- Remove the entry under `name` as `sys_unlink` does; `dir` says whether it is that of a directory.
False if there is no such entry or it must not be removed. -/
def unlinkEntry (L : Layout) (dp : Inode) (name : Name) (dir : Bool) : FsProg (Bool × Inode) :=
  if namecmp name dot || namecmp name dotdot then pure (false, dp)
  else do
    let (found, dp) ← dirlookup L dp name
    match found with
    | none => pure (false, dp)
    | some (_, off) =>
        let (r, dp) ← writei L dp (fun _ => some 0) (BitVec.ofNat 32 off) 16
        if r = some 16 then
          if dir then
            let dp := { dp with nlink := dp.nlink - 1 }
            iupdate L dp
            pure (true, dp)
          else pure (true, dp)
        else panic .unlinkWritei

def createDots (L : Layout) (ip dp : Inode) : FsProg (Bool × Inode) :=
  if ip.type = T_DIR then do
    let (ok, ip) ← dirlink L ip dot ip.inum
    if ok then dirlink L ip dotdot dp.inum else pure (false, ip)
  else pure (true, ip)

/-- Create the entries in a new inode and its entry in the directory `dp`. -/
def createEntries (L : Layout) (ip dp : Inode) (name : Name) : FsProg (Bool × Inode × Inode) := do
  let (ok, ip) ← createDots L ip dp
  if ok then
    let (ok, dp) ← dirlink L dp name ip.inum
    pure (ok, ip, dp)
  else pure (false, ip, dp)

def createFail (L : Layout) (ip : Inode) : FsProg Unit := do
  iupdate L { ip with nlink := 0 }
  ifree L { ip with nlink := 0 }

/-- The part of `create` after the allocation of inode `inum`, whose type is the type to create. -/
def createInode (L : Layout) (dp : Inode) (name : Name) (major minor : BitVec 16) (inum : ℕ) :
    FsProg (Option Inode × Inode) := do
  let ip ← ilock L none inum
  let ip := { ip with major := major, minor := minor, nlink := 1 }
  iupdate L ip
  let (ok, ip, dp) ← createEntries L ip dp name
  if ok then
    if ip.type = T_DIR then
      let dp := { dp with nlink := dp.nlink + 1 }
      iupdate L dp
      pure (some ip, dp)
    else pure (some ip, dp)
  else
    createFail L ip
    pure (none, dp)

def create (L : Layout) (dp : Inode) (name : Name) (type major minor : BitVec 16) :
    FsProg (Option Inode × Inode) := do
  let (found, dp) ← dirlookup L dp name
  if found.isSome then pure (none, dp)
  else
    match ← ialloc L type with
    | none => pure (none, dp)
    | some inum => createInode L dp name major minor inum

end Xv6.Fs
