import Mathlib.Tactic.IntervalCases
import Xv6.Base

/-!
# Layout of the disk

The parts of the disk that the super block of `fs.h` describes, and the on-disk inode.
-/

namespace Xv6

open Bytes

/-- The fields of the super block, laid out one region after the other as `mkfs` does. -/
structure Layout where
  size : ℕ
  ninodes : ℕ
  nlog : ℕ
  logstart : ℕ
  inodestart : ℕ
  bmapstart : ℕ
  log_le : logstart + nlog ≤ inodestart
  inodes_le : inodestart + ninodes / IPB + 1 ≤ bmapstart
  bitmap_le : bmapstart + size / BPB + 1 ≤ size
  size_lt : size < 2 ^ 31

namespace Layout

variable (L : Layout)

def iblock (i : ℕ) : ℕ := i / IPB + L.inodestart

/-- `BBLOCK`: the block of the free map that contains the bit for block `b`. -/
def bblock (b : ℕ) : ℕ := b / BPB + L.bmapstart

/-- The number of meta blocks: boot block, super block, log, inodes and bitmap. -/
def nmeta : ℕ := L.bmapstart + L.size / BPB + 1

/-- The blocks that the file system changes: inodes, bitmap and data. -/
def Home (b : ℕ) : Prop := L.inodestart ≤ b ∧ b < L.size

/-- The blocks that hold file data and indirect blocks. -/
def Data (b : ℕ) : Prop := L.nmeta ≤ b ∧ b < L.size

def mkfs : Layout where
  size := FSSIZE
  ninodes := 200
  nlog := LOGSIZE
  logstart := 2
  inodestart := 32
  bmapstart := 45
  log_le := by decide
  inodes_le := by decide
  bitmap_le := by decide
  size_lt := by decide

variable {L}

theorem nmeta_le : L.nmeta ≤ L.size := L.bitmap_le

theorem iblock_bounds {i : ℕ} (hi : i < L.ninodes) :
    L.inodestart ≤ L.iblock i ∧ L.iblock i < L.bmapstart := by
  have blocks := L.inodes_le
  simp only [iblock, IPB, BSIZE] at blocks ⊢
  omega

theorem bblock_bounds {b : ℕ} (hb : b < L.size) : L.bmapstart ≤ L.bblock b ∧ L.bblock b < L.nmeta := by
  simp only [bblock, nmeta, BPB, BSIZE]
  omega

theorem inodestart_le : L.inodestart ≤ L.bmapstart :=
  le_trans (Nat.le_add_right _ _) (Nat.le_of_succ_le L.inodes_le)

theorem bmapstart_le : L.bmapstart ≤ L.nmeta :=
  le_trans (Nat.le_add_right _ _) (Nat.le_succ _)

theorem bmapstart_pos : 0 < L.bmapstart := lt_of_lt_of_le (Nat.succ_pos _) L.inodes_le

theorem home_iblock {i : ℕ} (hi : i < L.ninodes) : L.Home (L.iblock i) := by
  have bounds := iblock_bounds hi
  have bitmap := L.bmapstart_le
  have data := L.nmeta_le
  exact ⟨bounds.1, by omega⟩

theorem home_bblock {b : ℕ} (hb : b < L.size) : L.Home (L.bblock b) := by
  have bounds := bblock_bounds hb
  have start := L.inodestart_le
  have data := L.nmeta_le
  exact ⟨by omega, by omega⟩

theorem Data.home {b : ℕ} (hb : L.Data b) : L.Home b :=
  ⟨le_trans L.inodestart_le (le_trans L.bmapstart_le hb.1), hb.2⟩

theorem Data.ne_zero {b : ℕ} (hb : L.Data b) : b ≠ 0 := by
  have start := L.bmapstart_pos
  have lower := le_trans L.bmapstart_le hb.1
  omega

theorem Data.ne_bblock {b c : ℕ} (hb : L.Data b) (hc : c < L.size) : b ≠ L.bblock c := by
  have bounds := bblock_bounds hc
  have lower := hb.1
  omega

theorem Data.ne_iblock {b i : ℕ} (hb : L.Data b) (hi : i < L.ninodes) : b ≠ L.iblock i := by
  have bounds := iblock_bounds hi
  have lower := le_trans L.bmapstart_le hb.1
  omega

theorem iblock_ne_bblock {i c : ℕ} (hi : i < L.ninodes) (hc : c < L.size) :
    L.iblock i ≠ L.bblock c := by
  have inode := iblock_bounds hi
  have bitmap := bblock_bounds hc
  omega

end Layout

/-! ## Inodes -/

abbrev T_DIR : BitVec 16 := 1
abbrev T_FILE : BitVec 16 := 2

/-- The part of an in-memory inode that is copied from and to `struct dinode`. -/
@[ext] structure Inode where
  inum : ℕ
  type : BitVec 16
  major : BitVec 16
  minor : BitVec 16
  nlink : BitVec 16
  size : BitVec 32
  addrs : Fin (NDIRECT + 1) → BitVec 32

namespace Inode

def addr (ip : Inode) (k : ℕ) : ℕ := if h : k < NDIRECT + 1 then (ip.addrs ⟨k, h⟩).toNat else 0

def setAddr (ip : Inode) (k b : ℕ) : Inode :=
  { ip with addrs := fun j => if j.val = k then BitVec.ofNat 32 b else ip.addrs j }

def truncated (ip : Inode) : Inode := { ip with addrs := 0, size := 0 }

/-- The inode with a size of at least `off`. -/
def extend (ip : Inode) (off : ℕ) : Inode :=
  if ip.size.toNat < off then { ip with size := BitVec.ofNat 32 off } else ip

def fresh (inum : ℕ) (type : BitVec 16) : Inode := ⟨inum, type, 0, 0, 0, 0, 0⟩

def record (ip : Inode) : Bytes 64 := fun i =>
  if i.val < 2 then ip.type.extractLsb' (8 * i) 8
  else if i.val < 4 then ip.major.extractLsb' (8 * (i - 2)) 8
  else if i.val < 6 then ip.minor.extractLsb' (8 * (i - 4)) 8
  else if i.val < 8 then ip.nlink.extractLsb' (8 * (i - 6)) 8
  else if i.val < 12 then ip.size.extractLsb' (8 * (i - 8)) 8
  else (ip.addrs ⟨(i.val - 12) / 4, show _ < 13 by omega⟩).extractLsb' (8 * ((i.val - 12) % 4)) 8

def encode (ip : Inode) (d : Block) : Block := d.blit (64 * (ip.inum % IPB)) 64 ip.record.byte

def decode (inum : ℕ) (d : Block) : Inode where
  inum := inum
  type := d.word (64 * (inum % IPB)) 2
  major := d.word (64 * (inum % IPB) + 2) 2
  minor := d.word (64 * (inum % IPB) + 4) 2
  nlink := d.word (64 * (inum % IPB) + 6) 2
  size := d.word (64 * (inum % IPB) + 8) 4
  addrs := fun j => d.word (64 * (inum % IPB) + (12 + 4 * j)) 4

theorem addr_setAddr (ip : Inode) {k b : ℕ} (hk : k ≤ NDIRECT) (hb : b < 2 ^ 32) (j : ℕ) :
    (ip.setAddr k b).addr j = if j = k then b else ip.addr j := by
  unfold addr setAddr
  split_ifs with hj hjk hjk
  · simp only [hjk, if_true, BitVec.toNat_ofNat, Nat.mod_eq_of_lt hb]
  · simp only [hjk, if_false]
  · exact absurd (Nat.lt_succ_of_le (hjk ▸ hk)) hj
  · rfl

@[simp] theorem addr_extend (ip : Inode) (off k : ℕ) : (ip.extend off).addr k = ip.addr k := by
  unfold extend
  split_ifs <;> rfl

@[simp] theorem type_extend (ip : Inode) (off : ℕ) : (ip.extend off).type = ip.type := by
  unfold extend
  split_ifs <;> rfl

@[simp] theorem inum_extend (ip : Inode) (off : ℕ) : (ip.extend off).inum = ip.inum := by
  unfold extend
  split_ifs <;> rfl

theorem size_extend (ip : Inode) {off : ℕ} (hoff : off < 2 ^ 32) :
    (ip.extend off).size.toNat = max ip.size.toNat off := by
  unfold extend
  split_ifs with h
  · rw [max_eq_right (le_of_lt h), BitVec.toNat_ofNat, Nat.mod_eq_of_lt hoff]
  · rw [max_eq_left (Nat.le_of_not_lt h)]

@[simp] theorem addr_truncated (ip : Inode) (k : ℕ) : ip.truncated.addr k = 0 := by
  unfold addr truncated
  split_ifs <;> rfl

@[simp] theorem addr_fresh (inum : ℕ) (type : BitVec 16) (k : ℕ) : (fresh inum type).addr k = 0 := by
  unfold addr fresh
  split_ifs <;> rfl

theorem word_encode (ip : Inode) (d : Block) {o k : ℕ} (inside : o + k ≤ 64) :
    (ip.encode d).word (64 * (ip.inum % IPB) + o) k = ip.record.word o k := by
  have index : ip.inum % IPB < IPB := Nat.mod_lt _ (by decide)
  refine word_blit_in d _ inside ?_
  simp only [IPB, BSIZE] at index ⊢
  omega

theorem addr_le (j : Fin (NDIRECT + 1)) : 12 + 4 * j.val + 4 ≤ 64 := by
  have bound : j.val < 13 := j.isLt
  omega

theorem word_record_addr (ip : Inode) (j : Fin (NDIRECT + 1)) :
    ip.record.word (12 + 4 * j) 4 = ip.addrs j := by
  refine word_eq_of_byte fun k hk => ?_
  have place := addr_le j
  have index : (⟨(12 + 4 * j.val + k - 12) / 4, show _ < 13 by omega⟩ : Fin (NDIRECT + 1)) = j :=
    Fin.ext (by simp only; omega)
  have within : (12 + 4 * j.val + k - 12) % 4 = k := by omega
  rw [byte, dif_pos (by omega)]
  simp only [record]
  rw [if_neg (by omega), if_neg (by omega), if_neg (by omega), if_neg (by omega),
    if_neg (by omega), index, within]

theorem decode_encode (ip : Inode) (d : Block) : decode ip.inum (ip.encode d) = ip := by
  have field {o k : ℕ} {v : BitVec (8 * k)} (inside : o + k ≤ 64)
      (bytes : ∀ j < k, ip.record.byte (o + j) = v.extractLsb' (8 * j) 8) :
      (ip.encode d).word (64 * (ip.inum % IPB) + o) k = v :=
    (word_encode ip d inside).trans (word_eq_of_byte bytes)
  ext1
  · rfl
  · exact field (o := 0) (k := 2) (by decide) fun j hj => by interval_cases j <;> rfl
  · exact field (k := 2) (by decide) fun j hj => by interval_cases j <;> rfl
  · exact field (k := 2) (by decide) fun j hj => by interval_cases j <;> rfl
  · exact field (k := 2) (by decide) fun j hj => by interval_cases j <;> rfl
  · exact field (k := 4) (by decide) fun j hj => by interval_cases j <;> rfl
  · funext j
    exact (word_encode ip d (addr_le j)).trans (word_record_addr ip j)

theorem decode_zero (i : ℕ) : decode i (fun _ => 0) = fresh i 0 := by
  ext1
  · rfl
  · exact word_zero _ _
  · exact word_zero _ _
  · exact word_zero _ _
  · exact word_zero _ _
  · exact word_zero _ _
  · funext j
    exact word_zero _ _

theorem decode_encode_of_ne (ip : Inode) (d : Block) {i : ℕ} (other : i % IPB ≠ ip.inum % IPB) :
    decode i (ip.encode d) = decode i d := by
  have apart : ∀ {o k : ℕ}, o + k ≤ 64 →
      (ip.encode d).word (64 * (i % IPB) + o) k = d.word (64 * (i % IPB) + o) k := by
    intro o k inside
    exact word_blit_out d _ (by omega)
  ext1
  · rfl
  · exact apart (by decide : 0 + 2 ≤ 64)
  · exact apart (by decide : 2 + 2 ≤ 64)
  · exact apart (by decide : 4 + 2 ≤ 64)
  · exact apart (by decide : 6 + 2 ≤ 64)
  · exact apart (by decide : 8 + 4 ≤ 64)
  · funext j
    exact apart (addr_le j)

end Inode

end Xv6
