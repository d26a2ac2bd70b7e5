import Xv6.Fs.Lookup
import Xv6.Fs.Ownership
import Xv6.Mkfs.Build

/-!
# The finished image

What `mkfs` leaves on the disk, read with the functions of the kernel.  The rounded size of the root
directory leaves a hole if its entries fill its blocks.
-/

namespace Xv6.Mkfs

open Function List Image

open Fs (Store slot dataSlot inodes NSLOT Name Mapped Readable fileByte)

variable {args : List Arg}

/-! ## The bitmap -/

theorem bit_bitmap {used b : ℕ} (fits : used ≤ BPB) : (bitmap used).bit b = decide (b < used) := by
  unfold bitmap
  induction used with
  | zero => simp [Bytes.bit, Bytes.byte]
  | succ used ih =>
    have inside : used / 8 < BSIZE := by
      simp only [BPB, BSIZE] at fits ⊢
      omega
    rw [range_succ, foldl_append, foldl_cons, foldl_nil]
    by_cases same : b = used
    · subst same
      rw [Bytes.bit_setBit_self _ _ inside]
      exact (decide_eq_true (Nat.lt_succ_self b)).symm
    · rw [Bytes.bit_setBit_of_ne _ _ inside same, ih (Nat.le_of_succ_le fits)]
      exact decide_eq_decide.mpr (by omega)

/-! ## The finished image -/

section Finish

variable {s : Image} {c : ℕ → List Byte} {i k : ℕ}

def inodeArea : ℕ := ninodeblocks * IPB

def finalInode (s : Image) : ℕ → Inode :=
  update (disk s.sects) ROOTINO (rounded (disk s.sects ROOTINO))

theorem rounded_inum (σ : Store) : (rounded (disk σ ROOTINO)).inum = ROOTINO := disk_inum σ ROOTINO

theorem root_lt (σ : Store) : (rounded (disk σ ROOTINO)).inum < inodeRoom := by
  rw [rounded_inum]
  decide

theorem finish_data {b : ℕ} (hb : nmeta ≤ b) : s.finish.sects b = s.sects b := by
  have apart : b ≠ L.bmapstart := Nat.ne_of_gt (lt_of_lt_of_le (by decide) hb)
  exact (update_of_ne apart ..).trans (putInode_data (root_lt s.sects) (.inl hb))

theorem finish_inodes (hi : i < inodeArea) : inodes L s.finish.sects i = finalInode s i := by
  have small : i < inodeRoom := lt_trans hi (by decide)
  have apart : L.iblock i ≠ L.bmapstart := by
    change i < 208 at hi
    change i / 16 + 32 ≠ 45
    omega
  have written := congrFun (disk_encode s.sects (root_lt s.sects)) i
  rw [disk, if_pos small, inodes, rounded_inum] at written
  rw [inodes, finish, write, putInode, write, rounded_inum]
  simp only [update_of_ne apart]
  exact written

theorem finalInode_root : finalInode s ROOTINO = rounded (disk s.sects ROOTINO) :=
  update_self ..

theorem finalInode_of_ne (hi : i ≠ ROOTINO) : finalInode s i = disk s.sects i :=
  update_of_ne hi ..

theorem addr_finalInode : (finalInode s i).addr k = (disk s.sects i).addr k := by
  by_cases root : i = ROOTINO
  · subst root
    rw [finalInode_root]
    rfl
  · rw [finalInode_of_ne root]

theorem type_finalInode : (finalInode s i).type = (disk s.sects i).type := by
  by_cases root : i = ROOTINO
  · subst root
    rw [finalInode_root]
    rfl
  · rw [finalInode_of_ne root]

theorem finish_slot (h : Built s c) (hi : i < inodeArea) :
    slot s.finish.sects (inodes L s.finish.sects i) k = slot s.sects (disk s.sects i) k := by
  rw [finish_inodes hi]
  unfold slot
  rw [addr_finalInode, addr_finalInode]
  split_ifs with low indirect
  · rfl
  · rfl
  · rw [finish_data (h.draft.filled.range (ref_indirect indirect)).1]

theorem finish_used (h : Built s c) {b : ℕ} (hb : b < FSSIZE) :
    Fs.Used L s.finish.sects b ↔ b < s.freeblock := by
  have place : L.bblock b = L.bmapstart := by
    change b / 8192 + 45 = 45
    have := hb
    simp only [FSSIZE] at this
    omega
  have index : b % BPB = b := Nat.mod_eq_of_lt (lt_trans hb (by decide))
  have fits : s.freeblock ≤ BPB := le_trans h.draft.filled.room (by decide)
  have block : s.finish.sects L.bmapstart = bitmap s.freeblock := by
    simp only [finish, write, update_self]
  rw [Fs.Used, place, index, block, bit_bitmap fits, decide_eq_true_eq]

theorem finish_mapped (h : Built s c) (hi : i < inodeArea) {bn : ℕ} (hbn : bn < MAXFILE) :
    slot s.finish.sects (inodes L s.finish.sects i) (dataSlot bn) ≠ 0 ↔
      bn < blocksOf (c i).length := by
  have inside := Fs.dataSlot_lt hbn
  rw [finish_slot h hi, ← h.draft.isSome hbn, Option.isSome_iff_ne_none, ne_eq, ne_eq,
    ref_eq_none inside]

end Finish

/-! ## Holes -/

/-- Every file has a block for each of its bytes. -/
def HoleFree (img : Image) : Prop :=
  ∀ i < inodeArea, (inodes L img.sects i).type ≠ 0 →
    Mapped img.sects (inodes L img.sects i) (inodes L img.sects i).size.toNat

theorem length_dirent (inum : ℕ) (name : Name) : (dirent inum name).length = DIRENT := by
  rw [dirent, length_map, length_range]

theorem length_entries (n : ℕ) (args : List Arg) : (entries n args).length = DIRENT * args.length := by
  induction args generalizing n with
  | nil => rfl
  | cons a args ih =>
    rw [entries, length_append, length_dirent, ih, length_cons]
    simp only [DIRENT]
    omega

theorem length_root (args : List Arg) : (files args ROOTINO).length = DIRENT * (args.length + 2) := by
  simp only [files, length_append, length_dirent, length_entries, DIRENT]
  omega

theorem mapped_iff {s : Image} {c : ℕ → List Byte} (h : Built s c) {i : ℕ}
    (hi : i < inodeArea) {size : ℕ} (small : size ≤ MAXFILE * BSIZE) :
    Mapped s.finish.sects (inodes L s.finish.sects i) size ↔
      blocksOf size ≤ blocksOf (c i).length := by
  have below : ∀ bn, bn * BSIZE < size ↔ bn < blocksOf size := by
    intro bn
    simp only [blocksOf, BSIZE]
    omega
  have bound : blocksOf size ≤ MAXFILE := by
    simp only [blocksOf, MAXFILE, NDIRECT, NINDIRECT, BSIZE] at small ⊢
    omega
  constructor
  · intro mapped
    refine Nat.le_of_not_lt fun more => ?_
    obtain ⟨inside, nonzero⟩ := mapped _ ((below _).mpr more)
    exact lt_irrefl _ ((finish_mapped h hi inside).mp nonzero)
  · intro le bn hbn
    have lower := (below bn).mp hbn
    have inside : bn < MAXFILE := lt_of_lt_of_le lower bound
    exact ⟨inside, (finish_mapped h hi inside).mpr (lt_of_lt_of_le lower le)⟩

theorem Built.length_le {s : Image} {c : ℕ → List Byte} (h : Built s c) {i : ℕ}
    (hi : i < inodeRoom) : (c i).length ≤ MAXFILE * BSIZE :=
  le_trans (h.draft.held i) (Nat.mul_le_mul_right _ (h.draft.small i hi))

theorem size_root {s : Image} (h : Built s (files args))
    (next : s.freeinode = args.length + 2) : (finalInode s ROOTINO).size.toNat =
      (DIRENT * (args.length + 2) / BSIZE + 1) * BSIZE := by
  have size := h.size ROOTINO one_pos (by rw [next]; exact Nat.le_add_left _ _)
  rw [length_root] at size
  have room := h.room
  rw [next] at room
  rw [finalInode_root, rounded, size]
  refine (BitVec.toNat_ofNat ..).trans (Nat.mod_eq_of_lt ?_)
  change args.length + 2 ≤ 224 at room
  simp only [DIRENT, BSIZE]
  omega

theorem Built.holeFree_iff {s : Image} (h : Built s (files args))
    (next : s.freeinode = args.length + 2) :
    HoleFree s.finish ↔ (args.length + 2) % (BSIZE / DIRENT) ≠ 0 := by
  have few : args.length + 2 ≤ 224 := by
    rw [← next]
    exact h.room
  have rootSize := size_root h next
  have root : Mapped s.finish.sects (inodes L s.finish.sects ROOTINO)
      (inodes L s.finish.sects ROOTINO).size.toNat ↔
      (args.length + 2) % (BSIZE / DIRENT) ≠ 0 := by
    rw [finish_inodes (by decide), rootSize, ← finish_inodes (by decide),
      mapped_iff h (by decide), length_root]
    · simp only [blocksOf, BSIZE, DIRENT]
      omega
    · simp only [MAXFILE, NDIRECT, NINDIRECT, BSIZE, DIRENT]
      omega
  constructor
  · intro free
    refine root.mp (free ROOTINO (by decide) ?_)
    rw [finish_inodes (by decide), type_finalInode,
      h.type ROOTINO one_pos (by rw [next]; exact Nat.le_add_left _ _)]
    decide
  · intro odd i hi type
    by_cases place : i = ROOTINO
    · subst place
      exact root.mpr odd
    · rw [finish_inodes hi, type_finalInode] at type
      by_cases born : 0 < i ∧ i < s.freeinode
      · have size := h.size i born.1 born.2
        rw [finish_inodes hi, finalInode_of_ne place, size, ← finalInode_of_ne place,
          ← finish_inodes hi, mapped_iff h hi]
        exact h.length_le (lt_trans hi (by decide))
      · rw [(h.free i (by omega)).1] at type
        exact absurd rfl type

/-! ## Arguments that fit -/

/-- The number of blocks that the files and the root directory take. -/
def blocksUsed (args : List Arg) : ℕ :=
  nmeta + cost (blocksOf (DIRENT * (args.length + 2))) +
    (args.map fun a => cost (blocksOf a.contents.length)).sum

theorem sum_getElem? {α : Type} (g : α → ℕ) {l : List α} {n : ℕ} (le : l.length ≤ n) :
    ∑ i ∈ Finset.range n, (l[i]?.map g).getD 0 = (l.map g).sum := by
  induction l generalizing n with
  | nil => exact Finset.sum_eq_zero fun _ _ => rfl
  | cons a l ih =>
    obtain ⟨m, rfl⟩ : ∃ m, n = m + 1 := ⟨n - 1, by rw [length_cons] at le; omega⟩
    rw [Finset.sum_range_succ', map_cons, sum_cons, add_comm]
    simp only [getElem?_cons_succ, getElem?_cons_zero, Option.map_some, Option.getD_some]
    rw [ih (Nat.le_of_succ_le_succ le)]

theorem total_files (few : args.length + 2 ≤ inodeRoom) :
    nmeta + total (fun i => blocksOf (files args i).length) = blocksUsed args := by
  obtain ⟨m, hm⟩ : ∃ m, inodeRoom = m + 2 := ⟨222, rfl⟩
  have file : ∀ i, cost (blocksOf (files args (i + 2)).length) =
      (args[i]?.map fun a => cost (blocksOf a.contents.length)).getD 0 := by
    intro i
    rw [files_file]
    cases args[i]? with
    | none => decide
    | some a => rfl
  have sum : ∑ i ∈ Finset.range m, cost (blocksOf (files args (i + 1 + 1)).length) =
      (args.map fun a => cost (blocksOf a.contents.length)).sum := by
    rw [← sum_getElem? _ (by omega : args.length ≤ m)]
    exact Finset.sum_congr rfl fun i _ => file i
  have zero : cost (blocksOf (files args 0).length) = 0 := (by decide : cost (blocksOf 0) = 0)
  rw [total, hm, Finset.sum_range_succ', Finset.sum_range_succ', sum, zero, blocksUsed,
    ← length_root]
  change nmeta + (_ + cost (blocksOf (files args ROOTINO).length) + 0) = _
  omega

theorem blocksOf_le {n : ℕ} (hn : n ≤ MAXFILE * BSIZE) : blocksOf n ≤ MAXFILE := by
  simp only [blocksOf, MAXFILE, NDIRECT, NINDIRECT, BSIZE] at hn ⊢
  omega

theorem room_files (few : args.length + 2 ≤ inodeRoom)
    (size : ∀ a ∈ args, a.contents.length ≤ MAXFILE * BSIZE)
    (fits : blocksUsed args ≤ FSSIZE) : Room (files args) := by
  refine ⟨by rw [total_files few]; exact fits, fun i _ => ?_⟩
  match i with
  | 0 => exact blocksOf_le zero_le
  | 1 =>
    refine blocksOf_le ?_
    rw [length_root]
    change args.length + 2 ≤ 224 at few
    simp only [MAXFILE, NDIRECT, NINDIRECT, BSIZE, DIRENT]
    omega
  | i + 2 =>
    dsimp only
    rw [files_file]
    cases ha : args[i]? with
    | none => exact blocksOf_le zero_le
    | some a => exact blocksOf_le (size a (mem_of_getElem? ha))

theorem emptyFile_char (i : ℕ) {c : ℕ} (small : c < 48) :
    BitVec.ofNat 8 c ≠ BitVec.ofNat 8 (48 + i % 64) := by
  intro same
  have number := congrArg BitVec.toNat same
  rw [BitVec.toNat_ofNat, BitVec.toNat_ofNat] at number
  omega

def emptyFile (i : ℕ) : Arg where
  path := [97, BitVec.ofNat 8 (48 + i % 64)]
  reads := some []
  path_ne c hc := by
    rcases mem_cons.mp hc with rfl | hc
    · decide
    · rw [mem_singleton.mp hc]
      exact (emptyFile_char i (by decide : 0 < 48)).symm
  reads_le chunks hchunks buf hbuf := by
    obtain rfl := Option.some.inj hchunks
    cases hbuf

def emptyFiles (n : ℕ) : List Arg := (List.range n).map emptyFile

theorem emptyFiles_suitable {n : ℕ} (few : n + 2 ≤ inodeRoom) : Suitable (emptyFiles n) := by
  have length : (emptyFiles n).length = n := by rw [emptyFiles, length_map, length_range]
  have member : ∀ a ∈ emptyFiles n, ∃ i, a = emptyFile i := by
    intro a ha
    obtain ⟨i, -, rfl⟩ := mem_map.mp ha
    exact ⟨i, rfl⟩
  have none : ((emptyFiles n).map fun a => cost (blocksOf a.contents.length)).sum = 0 := by
    refine sum_eq_zero fun x hx => ?_
    obtain ⟨a, ha, rfl⟩ := mem_map.mp hx
    obtain ⟨i, rfl⟩ := member a ha
    exact (by decide : cost (blocksOf 0) = 0)
  refine ⟨room_files (length.symm ▸ few) (fun a ha => ?_) ?_, fun a ha => ?_, fun a ha => ?_⟩
  · obtain ⟨i, rfl⟩ := member a ha
    exact zero_le
  · rw [blocksUsed, none, length]
    change n + 2 ≤ 224 at few
    have small : blocksOf (DIRENT * (n + 2)) ≤ 12 := by
      simp only [blocksOf, DIRENT, BSIZE]
      omega
    rw [cost, if_neg (not_lt.mpr small)]
    change 46 + _ + 0 ≤ 2000
    omega
  · obtain ⟨i, rfl⟩ := member a ha
    have long : (emptyFile i).path.take 5 ≠ Arg.user := by simp [emptyFile, Arg.user]
    rw [Arg.shortname, if_neg long]
    have second := emptyFile_char i (by decide : 47 < 48)
    simpa [emptyFile] using second
  · obtain ⟨i, rfl⟩ := member a ha
    rfl

/-- The image that `mkfs` writes has no holes if and only if the entries of its root directory do
not fill its blocks, as long as the inodes do not run into the data blocks. -/
theorem mkfs_hole_free_iff (args : List Arg) (few : args.length + 2 ≤ inodeRoom) (img : Image)
    (done : mkfs args = some img) : HoleFree img ↔ (args.length + 2) % (BSIZE / DIRENT) ≠ 0 := by
  obtain ⟨s, built, next, rfl⟩ := mkfs_finish few done
  exact built.holeFree_iff next

theorem mkfs_hole_free_emptyFiles : ∃ img, mkfs (emptyFiles 61) = some img ∧ HoleFree img := by
  obtain ⟨img, done⟩ := mkfs_exits (by decide) (emptyFiles_suitable (n := 61) (by decide))
  exact ⟨img, done, (mkfs_hole_free_iff (emptyFiles 61) (by decide) img done).mpr (by decide)⟩

/-- With 62 files the root directory is rounded up to a block that it does not have. -/
theorem root_hole : ∃ img, mkfs (emptyFiles 62) = some img ∧ ¬ HoleFree img := by
  obtain ⟨img, done⟩ := mkfs_exits (by decide) (emptyFiles_suitable (n := 62) (by decide))
  obtain ⟨s, built, next, rfl⟩ := mkfs_finish (by decide) done
  exact ⟨s.finish, done, fun free => (built.holeFree_iff next).mp free (by decide)⟩

end Xv6.Mkfs
