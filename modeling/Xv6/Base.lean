import Xv6.Lib.Bytes

/-!
# Parameters of the kernel

The constants of `param.h` and `fs.h`, disk blocks, and the messages of the calls of `panic`.
-/

namespace Xv6

abbrev NPROC : ℕ := 64
abbrev NOFILE : ℕ := 16
abbrev NINODE : ℕ := 50
abbrev ROOTDEV : ℕ := 1
abbrev MAXOPBLOCKS : ℕ := 10
abbrev LOGSIZE : ℕ := MAXOPBLOCKS * 3
abbrev NBUF : ℕ := MAXOPBLOCKS * 3
abbrev MAXARG : ℕ := 32
abbrev FSSIZE : ℕ := 2000
abbrev BSIZE : ℕ := 1024
abbrev NDIRECT : ℕ := 12
abbrev NINDIRECT : ℕ := BSIZE / 4
abbrev MAXFILE : ℕ := NDIRECT + NINDIRECT
abbrev IPB : ℕ := BSIZE / 64
abbrev BPB : ℕ := BSIZE * 8
abbrev DIRSIZ : ℕ := 14
abbrev ROOTINO : ℕ := 1
abbrev DIRENT : ℕ := 16

/-- The character constant of C. -/
def ch (c : Char) : Byte := BitVec.ofNat 8 c.toNat

/-- A disk block. -/
abbrev Block := Bytes BSIZE

/-- The calls of `panic`, one constructor for each message. -/
inductive Panic where
  | bgetNoBuffers
  | bwrite
  | brelse
  | logCommitting
  | tooBigTransaction
  | logWriteOutsideTrans
  | freeingFreeBlock
  | bmapOutOfRange
  | ilockNoType
  | dirlookupNotDir
  | dirlookupRead
  | dirlinkRead
  | unlinkWritei
  | igetNoInodes
  | ilock
  | iunlock
  | filedup
  | initExiting
  | acquire
  | release
  | sched
  | kerneltrap
  | kfree
  | walk
  | mappagesSize
  | mappagesRemap
  | uvmunmapNotAligned
  | uvmunmapWalk
  | uvmunmapNotMapped
  | uvmunmapNotALeaf
  | freewalkLeaf
  | uvmcopyNoPte
  | uvmcopyNotPresent
  | uvmclear
  | loadsegAddress
  | freeDesc1
  | freeDesc2
  | virtioDiskIntrStatus
  /-- A chain of descriptors that is no disk request, which the device does not define. -/
  | virtioChain
  deriving DecidableEq, Repr

end Xv6
