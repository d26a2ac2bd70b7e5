import Xv6.Fs.Names
import Xv6.Sys.Kernel

/-!
# Inodes of an image

The calls on paths see an inode as its attributes with its entries or its bytes.  On an image of the file
system, `dirlookup` and `readi` return what the operations on this view return.
-/

namespace Xv6.Sys

open Fs List Dinode DiskOp

variable {L : Layout} {σ : Store} {s : KState} {i n : ℕ}

/-- Inode `n` of an image, as the calls on paths see it. -/
def Dinode.ofImage (L : Layout) (σ : Store) (n : ℕ) : Dinode where
  attr := ⟨(inodes L σ n).type, (inodes L σ n).major, (inodes L σ n).minor, (inodes L σ n).nlink⟩
  dents := (range (entryCount (inodes L σ n))).map fun k =>
    ⟨(direntAt σ (inodes L σ n) k).inum, (direntAt σ (inodes L σ n) k).name⟩
  data := contents σ (inodes L σ n)

/-- Slot `i` of the inode table holds inode `n` of a well-formed image, and it is valid. -/
structure Shows (L : Layout) (σ : Store) (s : KState) (i n : ℕ) : Prop where
  image : WellFormed L σ
  inode : n < L.ninodes
  inum : (s.itable i).inum = n
  disk : s.disk n = .ofImage L σ n
  attr : (s.itable i).attr = (ofImage L σ n).attr
  type : (inodes L σ n).type ≠ 0

theorem looks_dirlookup_find (image : WellFormed L σ) (hn : n < L.ninodes)
    (dir : (inodes L σ n).type = T_DIR)
    (size : (inodes L σ n).size.toNat = 16 * entryCount (inodes L σ n)) (name : Name) :
    Looks NoPanic L.Data (dirlookup L (inodes L σ n) name) σ fun r =>
      r = ((find (ofImage L σ n).dents name).map fun k =>
        (((ofImage L σ n).dents.map Dent.inum).getD k 0, 16 * k), inodes L σ n) := by
  have used : (inodes L σ n).type ≠ 0 := by
    rw [dir]
    decide
  unfold dirlookup
  rw [if_neg (not_not.mpr dir)]
  refine Looks.bind ((looks_dirscan_cases (a := 0) size
    (fun p hp => (image n).readable hn trivial used hp) _ zero_le
    (by rw [zero_add]; exact Nat.lt_succ_self _)).mono ?_)
  rintro r (⟨k, hk, before, here, rfl⟩ | ⟨absent, rfl⟩)
  · have found : find (ofImage L σ n).dents name = some k := by
      rw [find, findIdx?_eq_some_iff_getElem]
      refine ⟨by simpa [ofImage] using hk, ?_, fun j hj => ?_⟩
      · simpa [ofImage] using here
      · simpa [ofImage] using before j zero_le hj
    rw [found]
    exact looks_ret (by simp [ofImage, hk])
  · have missing : find (ofImage L σ n).dents name = none := by
      rw [find, findIdx?_eq_none_iff]
      intro e he
      obtain ⟨k, hk, rfl⟩ := mem_map.mp he
      exact absent k zero_le (mem_range.mp hk)
    rw [missing]
    exact looks_ret rfl

/-- `dirlookup` in a directory of the image finds what the calls on paths look up. -/
theorem Shows.dirlookup (shows : Shows L σ s i n) (dir : (inodes L σ n).type = T_DIR)
    (size : (inodes L σ n).size.toNat = 16 * entryCount (inodes L σ n)) (name : Name) :
    ∃ r t, exec (.lookup i name) s = .ok (r, s) ∧
      (Fs.dirlookup L (inodes L σ n) name).run FsState.exec (.start σ) =
        (.ok (r.map fun x => (x.1, 16 * x.2), inodes L σ n), t) := by
  obtain ⟨r, t, run, -, rfl⟩ := ((looks_dirlookup_find shows.image shows.inode dir size name).returns
    fun _ hb => hb.home).run
  refine ⟨(find (ofImage L σ n).dents name).map fun k =>
    (((ofImage L σ n).dents.map Dent.inum).getD k 0, k), t, ?_, ?_⟩
  · rw [DiskOp.exec, if_pos (by rw [shows.attr]; exact dir), DiskOp.dents, shows.inum, shows.disk]
  · rw [run, Option.map_map]
    rfl

/-- `readi` on a file of the image copies what the calls on paths read. -/
theorem Shows.readi (shows : Shows L σ s i n) (file : (inodes L σ n).type ≠ T_DIR)
    (off len : BitVec 32) :
    ∃ bytes t, exec (.readi i off.toNat len.toNat) s = .ok (bytes, s) ∧
      (Fs.readi L (inodes L σ n) (fun _ => true) off len).run FsState.exec (.start σ) =
        (.ok (some bytes, inodes L σ n), t) := by
  have looks : Looks NoPanic L.Data (Fs.readi L (inodes L σ n) (fun _ => true) off len) σ fun r =>
      r = (some (readBytes (contents σ (inodes L σ n)) off.toNat len.toNat), inodes L σ n) := by
    have outside : ((inodes L σ n).size < off ∨ off + len < off) ↔
        (contents σ (inodes L σ n)).length < off.toNat ∨
          (off.toNat + len.toNat) % 2 ^ 32 < off.toNat := by
      rw [BitVec.lt_def, BitVec.lt_def, BitVec.toNat_add, length_contents]
    rw [readBytes, ← if_congr outside rfl rfl]
    by_cases bad : (inodes L σ n).size < off ∨ off + len < off
    · rw [Fs.readi, if_pos bad, if_pos bad]
      exact looks_ret rfl
    · refine (looks_readi_bytes _ off len fun p _ _ below =>
        (shows.image n).readable shows.inode trivial shows.type below).mono ?_
      rintro r ⟨same, all⟩
      have small : off.toNat + len.toNat < 2 ^ 32 := by
        rw [outside] at bad
        omega
      rw [if_neg bad, ← bytes_contents]
      exact Prod.ext (all (fun _ => rfl) small) same
  obtain ⟨r, t, run, -, rfl⟩ := (looks.returns fun _ hb => hb.home).run
  refine ⟨_, t, ?_, run⟩
  rw [exec, shows.inum, shows.disk, bytes, if_neg (by exact file)]
  rfl

end Xv6.Sys
