import Xv6.Fs.Read

/-!
# Directories keep the ownership of blocks

The rules for `dirlookup`, `dirlink` and `create` on a well-formed image.
-/

namespace Xv6.Fs

open Does

variable {L : Layout} {σ : Store} {n m : ℕ}

theorem does_dirscan (h : WellFormed L σ) (hn : n < L.ninodes) (type : (inodes L σ n).type ≠ 0)
    {e : Panic} (he : Benign e) (P : Dirent → Bool) (k off : ℕ) :
    Does L (dirscan L e P k (inodes L σ n) off) σ [] fun r σ' K' =>
      K' = [] ∧ σ' = σ ∧ r.2.2 = inodes L σ n := by
  induction k generalizing off with
  | zero => exact does_ret ⟨rfl, rfl, rfl⟩
  | succ k ih =>
    unfold dirscan
    split_ifs with inside
    swap
    · exact does_ret ⟨rfl, rfl, rfl⟩
    refine bind ((does_readi h hn type _ _ _).mono ?_)
    rintro ⟨r, ip⟩ σ' K' ⟨rfl, rfl, rfl⟩
    dsimp only
    split_ifs with full found
    · exact does_ret ⟨rfl, rfl, rfl⟩
    · exact ih _
    · exact does_panic he

theorem does_dirlookup (h : WellFormed L σ) (hn : n < L.ninodes)
    (type : (inodes L σ n).type ≠ 0) (name : Name) :
    Does L (dirlookup L (inodes L σ n) name) σ [] fun r σ' K' =>
      K' = [] ∧ σ' = σ ∧ r.2 = inodes L σ n := by
  unfold dirlookup
  split_ifs with directory
  · exact does_panic (by decide)
  refine bind ((does_dirscan h hn type (by decide) _ _ _).mono ?_)
  rintro ⟨off, found, dp⟩ σ' K' ⟨rfl, rfl, rfl⟩
  exact does_ret ⟨rfl, rfl, rfl⟩

theorem does_dirlink (h : WellFormed L σ) (hn : n < L.ninodes) (type : (inodes L σ n).type ≠ 0)
    (name : Name) (inum : ℕ) :
    Does L (dirlink L (inodes L σ n) name inum) σ [] fun r σ' K' => K' = [] ∧
      Wrote L σ n σ' r.2 ∧ r.2.type = (inodes L σ n).type := by
  unfold dirlink
  refine bind ((does_dirlookup h hn type name).mono ?_)
  rintro ⟨found, dp⟩ σ' K' ⟨rfl, rfl, rfl⟩
  dsimp only
  split_ifs with exists_already
  · exact does_ret ⟨rfl, Wrote.refl h n, rfl⟩
  refine bind ((does_dirscan h hn type (by decide) _ _ _).mono ?_)
  rintro ⟨off, found', dp⟩ σ'' K' ⟨rfl, rfl, rfl⟩
  refine bind ((does_writei h hn type _ _ _).mono ?_)
  rintro ⟨r, dp⟩ σ'' K' ⟨rfl, wrote, same⟩
  exact does_ret ⟨rfl, wrote, same⟩

/-- What an operation on the inode `n` and the directory `m` leaves. -/
structure WroteBoth (L : Layout) (σ : Store) (n m : ℕ) (σ' : Store) (ip dp : Inode) : Prop where
  wellFormed : WellFormed L σ'
  inode : inodes L σ' n = ip
  directory : inodes L σ' m = dp
  inodeType : ip.type = (inodes L σ n).type
  directoryType : dp.type = (inodes L σ m).type
  others : ∀ i < L.ninodes, i ≠ n → i ≠ m → inodes L σ' i = inodes L σ i

theorem does_createDots (h : WellFormed L σ) (hn : n < L.ninodes) (type : (inodes L σ n).type ≠ 0)
    (dp : Inode) :
    Does L (createDots L (inodes L σ n) dp) σ [] fun r σ' K' => K' = [] ∧
      Wrote L σ n σ' r.2 ∧ r.2.type = (inodes L σ n).type := by
  unfold createDots
  split_ifs with dir
  swap
  · exact does_ret ⟨rfl, Wrote.refl h n, rfl⟩
  refine bind ((does_dirlink h hn type _ _).mono ?_)
  rintro ⟨ok, ip⟩ σ' K' ⟨rfl, wrote, same⟩
  dsimp only at wrote same ⊢
  split_ifs with linked
  swap
  · exact does_ret ⟨rfl, wrote, same⟩
  obtain ⟨wf, rfl, others⟩ := wrote
  refine (does_dirlink wf hn (same ▸ type) _ _).mono ?_
  rintro r σ'' K' ⟨rfl, wrote', same'⟩
  exact ⟨rfl, Wrote.trans ⟨wf, rfl, others⟩ wrote', same'.trans same⟩

theorem does_createEntries (h : WellFormed L σ) (hn : n < L.ninodes) (hm : m < L.ninodes)
    (distinct : n ≠ m) (inodeType : (inodes L σ n).type ≠ 0)
    (directoryType : (inodes L σ m).type ≠ 0) (name : Name) :
    Does L (createEntries L (inodes L σ n) (inodes L σ m) name) σ [] fun r σ' K' =>
      K' = [] ∧ WroteBoth L σ n m σ' r.2.1 r.2.2 := by
  unfold createEntries
  refine bind ((does_createDots h hn inodeType _).mono ?_)
  rintro ⟨ok, ip⟩ σ' K' ⟨rfl, ⟨wf, rfl, others⟩, same⟩
  have kept := others m hm distinct.symm
  dsimp only at same ⊢
  split_ifs with entries
  · rw [← kept] at directoryType ⊢
    refine bind ((does_dirlink wf hm directoryType _ _).mono ?_)
    rintro ⟨ok, dp⟩ σ'' K' ⟨rfl, wrote, same'⟩
    refine does_ret ⟨rfl, wrote.wellFormed, wrote.others n hn distinct, wrote.disk, same,
      same'.trans (congrArg Inode.type kept), fun i hi hin him => ?_⟩
    rw [wrote.others i hi him, others i hi hin]
  · exact does_ret ⟨rfl, wf, rfl, kept, same, rfl, fun i hi hin _ => others i hi hin⟩

/-- What `create` leaves: the new inode is one that was free, and no other inode but the directory has
changed. -/
structure Created (L : Layout) (σ : Store) (m : ℕ) (σ' : Store) (new : Option Inode) (dp : Inode) :
    Prop where
  wellFormed : WellFormed L σ'
  directory : inodes L σ' m = dp
  directoryType : dp.type = (inodes L σ m).type
  inode : ∀ ip, new = some ip →
    ip.inum < L.ninodes ∧ ip.inum ≠ m ∧ inodes L σ' ip.inum = ip ∧ ip.type ≠ 0
  others : ∀ i < L.ninodes, i ≠ m → (inodes L σ i).type ≠ 0 → inodes L σ' i = inodes L σ i

theorem does_createFail (h : WellFormed L σ) (hn : n < L.ninodes) (type : (inodes L σ n).type ≠ 0) :
    Does L (createFail L (inodes L σ n)) σ [] fun _ σ' K' => K' = [] ∧
      ∃ ip, Wrote L σ n σ' ip := by
  unfold createFail
  refine bind ((does_setFields h hn { inodes L σ n with nlink := 0 } rfl rfl
    (fun _ => rfl) ((h n).mapped n hn trivial type)).mono ?_)
  rintro _ σ₁ K' ⟨rfl, wrote⟩
  have freed := does_ifree wrote.wellFormed hn (by rw [wrote.disk]; exact type)
  rw [wrote.disk] at freed
  refine freed.mono ?_
  rintro _ σ₂ K' ⟨rfl, ip, -, wrote'⟩
  exact ⟨rfl, ip, wrote.trans wrote'⟩

theorem does_createInode (h : WellFormed L σ) (hn : n < L.ninodes) (hm : m < L.ninodes)
    (distinct : n ≠ m) (directory : (inodes L σ m).type ≠ 0) (name : Name) (major minor : BitVec 16) :
    Does L (createInode L (inodes L σ m) name major minor n) σ [] fun r σ' K' => K' = [] ∧
      WellFormed L σ' ∧ inodes L σ' m = r.2 ∧ r.2.type = (inodes L σ m).type ∧
      (∀ ip, r.1 = some ip → ip.inum = n ∧ inodes L σ' n = ip ∧ ip.type ≠ 0) ∧
      ∀ i < L.ninodes, i ≠ n → i ≠ m → inodes L σ' i = inodes L σ i := by
  unfold createInode
  refine bind (does_ilock hn none (fun _ => nofun) fun typed => ?_)
  refine bind ((does_setFields h hn
    { inodes L σ n with major := major, minor := minor, nlink := 1 } rfl rfl (fun _ => rfl)
    ((h n).mapped n hn trivial typed)).mono ?_)
  rintro _ σ₁ K' ⟨rfl, update⟩
  have directory₁ := update.others m hm distinct.symm
  have typed₁ : (inodes L σ₁ n).type ≠ 0 := by
    rw [update.disk]
    exact typed
  rw [← update.disk, ← directory₁]
  rw [← directory₁] at directory
  refine bind
    ((does_createEntries update.wellFormed hn hm distinct typed₁ directory name).mono ?_)
  rintro ⟨ok, ip, dp⟩ σ₂ K' ⟨rfl, wf, rfl, rfl, inodeType, directoryType, others⟩
  have typed₂ := inodeType ▸ typed₁
  have others' : ∀ i < L.ninodes, i ≠ n → i ≠ m → inodes L σ₂ i = inodes L σ i :=
    fun i hi hin him => (others i hi hin him).trans (update.others i hi hin)
  dsimp only at inodeType directoryType ⊢
  split_ifs with entries dir
  · refine bind ((does_setFields wf hm
      { inodes L σ₂ m with nlink := (inodes L σ₂ m).nlink + 1 } rfl rfl (fun _ => rfl)
      ((wf m).mapped m hm trivial (directoryType ▸ directory))).mono ?_)
    rintro _ σ₃ K' ⟨rfl, wrote⟩
    refine does_ret ⟨rfl, wrote.wellFormed, wrote.disk, directoryType, ?_, fun i hi hin him => ?_⟩
    · rintro ip ⟨rfl⟩
      exact ⟨rfl, wrote.others n hn distinct, typed₂⟩
    · rw [wrote.others i hi him, others' i hi hin him]
  · refine does_ret ⟨rfl, wf, rfl, directoryType, ?_, others'⟩
    rintro ip ⟨rfl⟩
    exact ⟨rfl, rfl, typed₂⟩
  · refine bind ((does_createFail wf hn typed₂).mono ?_)
    rintro _ σ₃ K' ⟨rfl, ip, wrote⟩
    refine does_ret ⟨rfl, wrote.wellFormed, wrote.others m hm distinct.symm, directoryType,
      fun _ => nofun, fun i hi hin him => ?_⟩
    rw [wrote.others i hi hin, others' i hi hin him]

theorem does_create (h : WellFormed L σ) (hm : m < L.ninodes) (directory : (inodes L σ m).type ≠ 0)
    (name : Name) (type major minor : BitVec 16) :
    Does L (create L (inodes L σ m) name type major minor) σ [] fun r σ' K' =>
      K' = [] ∧ Created L σ m σ' r.1 r.2 := by
  have unchanged : Created L σ m σ none (inodes L σ m) :=
    ⟨h, rfl, rfl, fun _ => nofun, fun _ _ _ _ => rfl⟩
  unfold create
  refine bind ((does_dirlookup h hm directory name).mono ?_)
  rintro ⟨found, dp⟩ σ' K' ⟨rfl, rfl, rfl⟩
  dsimp only
  split_ifs with exists_already
  · exact does_ret ⟨rfl, unchanged⟩
  refine bind (does_iallocFrom h (does_ret ⟨rfl, unchanged⟩) ?_ _ _)
  intro n σ₁ hn free alloc
  have distinct : n ≠ m := fun same => directory (same ▸ free)
  have directory₁ := alloc.others m hm distinct.symm
  dsimp only
  rw [← directory₁]
  refine (does_createInode alloc.wellFormed hn hm distinct (directory₁ ▸ directory) name _ _).mono ?_
  rintro ⟨new, dp⟩ σ₂ K' ⟨rfl, wf, rfl, same, inode, others⟩
  dsimp only at same inode
  refine ⟨rfl, wf, rfl, same.trans (congrArg Inode.type directory₁), ?_, fun i hi him typed => ?_⟩
  · rintro ip hip
    obtain ⟨rfl, disk, typed⟩ := inode ip hip
    exact ⟨hn, distinct, disk, typed⟩
  · have hin : i ≠ n := fun same => typed (same ▸ free)
    rw [others i hi hin him, alloc.others i hi hin]

end Xv6.Fs
