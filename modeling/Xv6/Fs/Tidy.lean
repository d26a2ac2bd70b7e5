import Xv6.Fs.Ownership

/-!
# Changed buffers are logged

Every function of the file system hands a buffer it has changed to the log before it releases it,
whatever it reads.  The exception is the failing copy of `writei`.
-/

namespace Xv6.Fs

open FsState List

/-- Whatever it reads, the program hands every buffer that it has changed, or that is in `D`, to the log
before it releases it. -/
def Tidy {α : Type} : List ℕ → FsProg α → Prop
  | D, .ret _ => D = []
  | D, .op (.bread _) k => ∀ d : Block, Tidy D (k d)
  | D, .op (.bset b _) k => Tidy (b :: D) (k ())
  | D, .op (.logWrite b) k => Tidy (D.filter (· ≠ b)) (k ())
  | D, .op (.brelse b) k => b ∉ D ∧ Tidy (D.filter (· ≠ b)) (k ())
  | _, .op (.panic _) _ => True

section Rules

variable {α β : Type}

theorem tidy_ret (a : α) : Tidy [] (.ret a : FsProg α) := rfl

theorem tidy_panic (e : Panic) : Tidy [] (panic e : FsProg α) := trivial

theorem Tidy.bind {D : List ℕ} {x : FsProg α} {f : α → FsProg β} (hx : Tidy D x)
    (hf : ∀ a, Tidy [] (f a)) : Tidy D (x >>= f) := by
  induction x generalizing D with
  | ret a =>
    obtain rfl : D = [] := hx
    exact hf a
  | op o k ih =>
    cases o with
    | bread b => exact fun d => ih d (hx d)
    | bset b d => exact ih () hx
    | logWrite b => exact ih () hx
    | brelse b => exact ⟨hx.1, ih () hx.2⟩
    | panic e => trivial

theorem tidy_bread {b : ℕ} {f : Block → FsProg α} (rest : ∀ d, Tidy [] (f d)) :
    Tidy [] (bread b >>= f) := rest

theorem tidy_brelse {b : ℕ} {f : Unit → FsProg α} (rest : Tidy [] (f ())) :
    Tidy [] (brelse b >>= f) := ⟨not_mem_nil, rest⟩

theorem tidy_log {b : ℕ} {d : Block} {f : Unit → FsProg α} (rest : Tidy [] (f ())) :
    Tidy [] (bset b d >>= fun _ => logWrite b >>= f) := by
  have clean : [b].filter (· ≠ b) = [] := by simp
  change Tidy ([b].filter (· ≠ b)) (f ())
  rwa [clean]

theorem Tidy.loop {f : ℕ → FsProg Unit} (hf : ∀ i, Tidy [] (f i)) (lo n : ℕ) :
    Tidy [] (Prog.loop f lo n) := by
  induction n generalizing lo with
  | zero => exact tidy_ret ()
  | succ n ih => exact (hf lo).bind fun _ => ih (lo + 1)

theorem Tidy.lost {x : FsProg α} {t : FsState} (hx : Tidy t.dirty x) :
    (x.run exec t).2.lost = t.lost := by
  induction x generalizing t with
  | ret a => rfl
  | op o k ih =>
    cases hs : exec o t with
    | error e => rw [Prog.run_op_error _ hs]
    | ok q =>
      rw [Prog.run_op_ok _ hs]
      cases o with
      | bread b =>
        simp only [exec] at hs
        split at hs <;> cases hs
        exact ih _ (hx _)
      | bset b d =>
        simp only [exec] at hs
        split at hs <;> cases hs
        exact ih _ hx
      | logWrite b =>
        simp only [exec] at hs
        split at hs <;> cases hs
        exact ih _ hx
      | brelse b =>
        simp only [exec] at hs
        split at hs <;> cases hs
        exact (ih _ hx.2).trans (if_neg fun both => hx.1 both.1)
      | panic e => cases hs

end Rules

section Programs

variable (L : Layout) {src : ℕ → Option Byte}

theorem tidy_bzero (b : ℕ) : Tidy [] (bzero b) :=
  tidy_bread fun _ => tidy_log (tidy_brelse (tidy_ret ()))

theorem tidy_ballocFrom (k b : ℕ) : Tidy [] (ballocFrom L k b) := by
  induction k generalizing b with
  | zero => exact tidy_ret 0
  | succ k ih =>
    unfold ballocFrom
    split_ifs
    · refine tidy_bread fun d => ?_
      split
      · exact tidy_log (tidy_brelse ((tidy_bzero _).bind fun _ => tidy_ret _))
      · exact tidy_brelse (ih _)
    · exact tidy_ret 0

theorem tidy_bfree (b : ℕ) : Tidy [] (bfree L b) := by
  refine tidy_bread fun d => ?_
  split_ifs
  · exact tidy_log (tidy_brelse (tidy_ret ()))
  · exact tidy_panic _

theorem tidy_iupdate (ip : Inode) : Tidy [] (iupdate L ip) :=
  tidy_bread fun _ => tidy_log (tidy_brelse (tidy_ret ()))

theorem tidy_ilock (cached : Option Inode) (inum : ℕ) : Tidy [] (ilock L cached inum) := by
  cases cached with
  | some ip => exact tidy_ret ip
  | none =>
    refine tidy_bread fun d => tidy_brelse ?_
    split_ifs
    · exact tidy_panic _
    · exact tidy_ret _

theorem tidy_iallocFrom (type : BitVec 16) (k inum : ℕ) : Tidy [] (iallocFrom L type k inum) := by
  induction k generalizing inum with
  | zero => exact tidy_ret none
  | succ k ih =>
    unfold iallocFrom
    split_ifs
    · refine tidy_bread fun d => ?_
      split_ifs
      · exact tidy_log (tidy_brelse (tidy_ret _))
      · exact tidy_brelse (ih _)
    · exact tidy_ret none

theorem tidy_bmapAddr (ip : Inode) (k : ℕ) : Tidy [] (bmapAddr L ip k) := by
  unfold bmapAddr
  split_ifs
  · refine (tidy_ballocFrom L _ _).bind fun addr => ?_
    split_ifs <;> exact tidy_ret _
  · exact tidy_ret _

theorem tidy_bmapEntry (b j : ℕ) : Tidy [] (bmapEntry L b j) := by
  refine tidy_bread fun d => ?_
  split_ifs
  · refine (tidy_ballocFrom L _ _).bind fun addr => ?_
    split_ifs
    · exact tidy_brelse (tidy_ret _)
    · exact tidy_log (tidy_brelse (tidy_ret _))
  · exact tidy_brelse (tidy_ret _)

theorem tidy_bmap (ip : Inode) (bn : ℕ) : Tidy [] (bmap L ip bn) := by
  unfold bmap
  split_ifs
  · exact tidy_bmapAddr L ip bn
  · refine (tidy_bmapAddr L ip NDIRECT).bind fun r => ?_
    dsimp only
    split_ifs
    · exact tidy_ret _
    · exact (tidy_bmapEntry L _ _).bind fun _ => tidy_ret _
  · exact tidy_panic _

theorem tidy_bfreeAddr (b : ℕ) : Tidy [] (bfreeAddr L b) := by
  unfold bfreeAddr
  split_ifs
  · exact tidy_ret ()
  · exact tidy_bfree L b

theorem tidy_bfreeIndirect (b : ℕ) : Tidy [] (bfreeIndirect L b) := by
  unfold bfreeIndirect
  split_ifs
  · exact tidy_ret ()
  · exact tidy_bread fun d => (Tidy.loop (fun j => tidy_bfreeAddr L _) 0 NINDIRECT).bind fun _ =>
      tidy_brelse (tidy_bfree L b)

theorem tidy_itrunc (ip : Inode) : Tidy [] (itrunc L ip) :=
  (Tidy.loop (fun _ => tidy_bfreeAddr L _) 0 NDIRECT).bind fun _ =>
    (tidy_bfreeIndirect L _).bind fun _ => (tidy_iupdate L _).bind fun _ => tidy_ret _

theorem tidy_ifree (ip : Inode) : Tidy [] (ifree L ip) :=
  (tidy_itrunc L ip).bind fun _ => tidy_iupdate L _

theorem tidy_readiFrom (dst : ℕ → Bool) (k : ℕ) (ip : Inode) (off n : ℕ)
    (data : List Byte) : Tidy [] (readiFrom L dst k ip off n data) := by
  induction k generalizing ip off n data with
  | zero => exact tidy_ret _
  | succ k ih =>
    unfold readiFrom
    split_ifs
    · exact tidy_ret _
    · refine (tidy_bmap L ip _).bind fun r => ?_
      dsimp only
      split_ifs
      · exact tidy_ret _
      · exact tidy_bread fun d => tidy_brelse (ih _ _ _ _)
      · exact tidy_bread fun d => tidy_brelse (tidy_ret _)

theorem tidy_readi (ip : Inode) (dst : ℕ → Bool) (off n : BitVec 32) :
    Tidy [] (readi L ip dst off n) := by
  unfold readi
  split_ifs
  · exact tidy_ret _
  · exact tidy_readiFrom L dst _ ip _ _ _
  · exact tidy_readiFrom L dst _ ip _ _ _

/-- The first byte of the source that is not mapped, if there is one, is the first byte of the source
or the first byte that goes to a block. -/
def AlignedFault (src : ℕ → Option Byte) (off n : ℕ) : Prop :=
  ∀ u < n, src u = none → (∀ v < u, src v ≠ none) → u = 0 ∨ (off + u) % BSIZE = 0

theorem copied_aligned {off n tot m : ℕ} (aligned : AlignedFault src off n)
    (done : ∀ v < tot, src v ≠ none) (left : tot + m ≤ n) (chunk : m ≤ BSIZE - (off + tot) % BSIZE) :
    copied src tot m = 0 ∨ copied src tot m = m ∧ ∀ v < tot + m, src v ≠ none := by
  unfold copied
  cases found : (range m).find? fun i => (src (tot + i)).isNone with
  | none =>
    refine .inr ⟨rfl, fun v hv none => ?_⟩
    have mapped := find?_eq_none.mp found (v - tot)
    by_cases before : v < tot
    · exact done v before none
    · rw [mem_range, Nat.add_sub_cancel' (Nat.le_of_not_lt before), none] at mapped
      exact mapped (by omega) rfl
  | some i =>
    obtain ⟨unmapped, bound, earlier⟩ := find?_range_eq_some.mp found
    rw [mem_range] at bound
    refine .inl (Nat.eq_zero_of_not_pos fun positive => ?_)
    change 0 < i at positive
    have first : ∀ v < tot + i, src v ≠ none := by
      intro v hv none
      by_cases before : v < tot
      · exact done v before none
      · have mapped := earlier (v - tot) (by omega)
        rw [Nat.add_sub_cancel' (Nat.le_of_not_lt before), none] at mapped
        cases mapped
    rcases aligned (tot + i) (by omega) (Option.isNone_iff_eq_none.mp unmapped) first with
      zero | boundary
    · omega
    · simp only [BSIZE] at boundary chunk
      omega

theorem tidy_writeiFrom {off n : ℕ} (aligned : AlignedFault src off n)
    (k : ℕ) (ip : Inode) (tot : ℕ) (bound : tot ≤ n) (done : ∀ v < tot, src v ≠ none) :
    Tidy [] (writeiFrom L src k ip (off + tot) (n - tot) tot) := by
  induction k generalizing ip tot with
  | zero => exact tidy_ret _
  | succ k ih =>
    unfold writeiFrom
    by_cases finished : n - tot = 0
    · rw [if_pos finished]
      exact tidy_ret _
    rw [if_neg finished]
    refine (tidy_bmap L ip _).bind fun r => ?_
    dsimp only
    by_cases full : r.1 = 0
    · rw [if_pos full]
      exact tidy_ret _
    rw [if_neg full]
    refine tidy_bread fun d => ?_
    obtain ⟨m, hm⟩ : ∃ m, min (n - tot) (BSIZE - (off + tot) % BSIZE) = m := ⟨_, rfl⟩
    have positive : 0 < m := by
      simp only [BSIZE] at hm
      omega
    rw [hm]
    unfold eitherCopyin
    rcases copied_aligned aligned done (m := m) (by omega) (by omega) with nothing | ⟨all, mapped⟩
    · rw [if_pos nothing, decide_eq_false (Nat.ne_of_gt positive)]
      exact tidy_brelse (tidy_ret _)
    · rw [if_neg (by omega), decide_eq_true all]
      refine tidy_log (tidy_brelse ?_)
      have next := ih r.2 (tot + m) (by omega) mapped
      rwa [← add_assoc, ← Nat.sub_sub] at next

theorem tidy_writei (ip : Inode) {off n : BitVec 32}
    (aligned : AlignedFault src off.toNat n.toNat) : Tidy [] (writei L ip src off n) := by
  unfold writei
  split_ifs
  · exact tidy_ret _
  · exact tidy_ret _
  · exact (tidy_writeiFrom L aligned _ ip 0 zero_le fun _ => nofun).bind fun r =>
      (tidy_iupdate L _).bind fun _ => tidy_ret _

theorem alignedFault_of_mapped (mapped : ∀ u, src u ≠ none)
    (off n : ℕ) : AlignedFault src off n := fun u _ none => absurd none (mapped u)

theorem tidy_dirscan (e : Panic) (P : Dirent → Bool) (k : ℕ) (dp : Inode) (off : ℕ) :
    Tidy [] (dirscan L e P k dp off) := by
  induction k generalizing dp off with
  | zero => exact tidy_ret _
  | succ k ih =>
    unfold dirscan
    split_ifs
    · refine (tidy_readi L dp _ _ _).bind fun r => ?_
      dsimp only
      split_ifs
      · exact tidy_ret _
      · exact ih _ _
      · exact tidy_panic _
    · exact tidy_ret _

theorem tidy_dirlookup (dp : Inode) (name : Name) : Tidy [] (dirlookup L dp name) := by
  unfold dirlookup
  split_ifs
  · exact tidy_panic _
  · exact (tidy_dirscan L _ _ _ dp 0).bind fun _ => tidy_ret _

theorem tidy_dirlink (dp : Inode) (name : Name) (inum : ℕ) : Tidy [] (dirlink L dp name inum) := by
  refine (tidy_dirlookup L dp name).bind fun r => ?_
  dsimp only
  split_ifs
  · exact tidy_ret _
  · refine (tidy_dirscan L _ _ _ _ 0).bind fun s => ?_
    refine (tidy_writei L _ (alignedFault_of_mapped ?_ _ _)).bind fun _ => tidy_ret _
    exact fun u => Option.some_ne_none _

theorem tidy_createDots (ip dp : Inode) : Tidy [] (createDots L ip dp) := by
  unfold createDots
  split_ifs
  · refine (tidy_dirlink L ip dot _).bind fun r => ?_
    dsimp only
    split_ifs
    · exact tidy_dirlink L _ dotdot _
    · exact tidy_ret _
  · exact tidy_ret _

theorem tidy_createEntries (ip dp : Inode) (name : Name) : Tidy [] (createEntries L ip dp name) := by
  refine (tidy_createDots L ip dp).bind fun r => ?_
  dsimp only
  split_ifs
  · exact (tidy_dirlink L dp name _).bind fun _ => tidy_ret _
  · exact tidy_ret _

theorem tidy_createInode (dp : Inode) (name : Name) (major minor : BitVec 16) (inum : ℕ) :
    Tidy [] (createInode L dp name major minor inum) := by
  refine (tidy_ilock L none inum).bind fun ip => (tidy_iupdate L _).bind fun _ => ?_
  refine (tidy_createEntries L _ dp name).bind fun r => ?_
  dsimp only
  split_ifs
  · exact (tidy_iupdate L _).bind fun _ => tidy_ret _
  · exact tidy_ret _
  · exact ((tidy_iupdate L _).bind fun _ => tidy_ifree L _).bind fun _ => tidy_ret _

theorem tidy_create (dp : Inode) (name : Name) (type major minor : BitVec 16) :
    Tidy [] (create L dp name type major minor) := by
  refine (tidy_dirlookup L dp name).bind fun r => ?_
  dsimp only
  split_ifs
  · exact tidy_ret _
  · refine (tidy_iallocFrom L type _ _).bind fun found => ?_
    cases found with
    | none => exact tidy_ret _
    | some inum => exact tidy_createInode L _ name major minor inum

end Programs

/-- The calls that log all their changes, whatever they read. -/
def FsCall.Aligned : FsCall → Prop
  | writei _ src off n => AlignedFault src off.toNat n.toNat
  | _ => True

theorem FsCall.Aligned.tidy {c : FsCall} (aligned : c.Aligned) (L : Layout)
    (icache : ℕ → Option Inode) : Tidy [] (c.prog L icache) := by
  cases c with
  | create dir name type major minor =>
    exact (tidy_ilock L _ dir).bind fun dp => (tidy_create L dp _ _ _ _).bind fun _ => tidy_ret _
  | dirlink dir name inum =>
    exact (tidy_ilock L _ dir).bind fun dp => (tidy_dirlink L dp _ _).bind fun _ => tidy_ret _
  | writei inum src off n =>
    exact (tidy_ilock L _ inum).bind fun ip => (tidy_writei L ip aligned).bind fun _ => tidy_ret _
  | readi inum dst off n =>
    exact (tidy_ilock L _ inum).bind fun ip => (tidy_readi L ip _ _ _).bind fun _ => tidy_ret _
  | setNlink inum nlink =>
    exact (tidy_ilock L _ inum).bind fun ip => (tidy_iupdate L _).bind fun _ => tidy_ret _
  | itrunc inum =>
    exact (tidy_ilock L _ inum).bind fun ip => (tidy_itrunc L ip).bind fun _ => tidy_ret _
  | iput inum =>
    simp only [FsCall.prog]
    split
    · split_ifs
      · exact (tidy_ifree L _).bind fun _ => tidy_ret _
      · exact tidy_ret _
    · exact tidy_ret _

end Xv6.Fs
