import Xv6.Mkfs.Append

/-!
# Building the image

The rules for the functions of `mkfs` that write inodes and for its main program, and what the
image contains when the program ends.
-/

namespace Xv6.Mkfs

open Function List Image Makes Inode

open Fs (Store slot dataSlot inodes NSLOT Name)

/-! ## Inodes on disk -/

def disk (σ : Store) (i : ℕ) : Inode := if i < inodeRoom then inodes L σ i else fresh i 0

theorem iblock_eq (i : ℕ) : L.iblock i = i / 16 + 32 := rfl

theorem iblock_bounds {i : ℕ} (hi : i < inodeRoom) : 1 < L.iblock i ∧ L.iblock i < nmeta := by
  change i < 224 at hi
  change 1 < i / 16 + 32 ∧ i / 16 + 32 < 46
  omega

theorem disk_inum (σ : Store) (i : ℕ) : (disk σ i).inum = i := by
  unfold disk
  split_ifs <;> rfl

theorem disk_congr {σ σ' : Store} (same : ∀ b < nmeta, σ' b = σ b) : disk σ' = disk σ := by
  funext i
  unfold disk inodes
  split_ifs with hi
  · rw [same _ (iblock_bounds hi).2]
  · rfl

theorem disk_encode (σ : Store) {ip : Inode} (hi : ip.inum < inodeRoom) :
    disk (update σ (L.iblock ip.inum) (ip.encode (σ (L.iblock ip.inum)))) =
      update (disk σ) ip.inum ip := by
  funext i
  by_cases same : i = ip.inum
  · subst same
    rw [update_self, disk, if_pos hi, inodes, update_self, decode_encode]
  · rw [update_of_ne same]
    unfold disk inodes
    split_ifs
    · by_cases block : L.iblock i = L.iblock ip.inum
      · rw [block, update_self, decode_encode_of_ne]
        rw [iblock_eq, iblock_eq] at block
        simp only [IPB, BSIZE]
        omega
      · rw [update_of_ne block]
    · rfl

/-! ## Files -/

def Room (c : ℕ → List Byte) : Prop := Fits fun i => blocksOf (c i).length

theorem blocksOf_mono {m n : ℕ} (le : m ≤ n) : blocksOf m ≤ blocksOf n :=
  Nat.div_le_div_right (by omega)

theorem Room.mono {c c' : ℕ → List Byte} (h : Room c')
    (le : ∀ i, (c i).length ≤ (c' i).length) : Room c :=
  Fits.mono h fun i => blocksOf_mono (le i)

def typeOf (i : ℕ) : BitVec 16 := if i = ROOTINO then T_DIR else T_FILE

/-- The image holds the files `c` and no others. -/
structure Built (s : Image) (c : ℕ → List Byte) : Prop where
  draft : Draft s (disk s.sects) (fun i => blocksOf (c i).length) c
  pos : 0 < s.freeinode
  room : s.freeinode ≤ inodeRoom
  type : ∀ i, 0 < i → i < s.freeinode → (disk s.sects i).type = typeOf i
  size : ∀ i, 0 < i → i < s.freeinode → (disk s.sects i).size.toNat = (c i).length
  free : ∀ i, i = 0 ∨ s.freeinode ≤ i → disk s.sects i = fresh i 0 ∧ c i = []
  super : s.sects 1 = superblockSect

theorem Draft.congr {s s' : Image} {ino ino' : ℕ → Inode} {nb : ℕ → ℕ} {c : ℕ → List Byte}
    (h : Draft s ino nb c) (length : s'.length = s.length) (free : s'.freeblock = s.freeblock)
    (data : ∀ b, nmeta ≤ b → s'.sects b = s.sects b)
    (addr : ∀ j k, (ino' j).addr k = (ino j).addr k) : Draft s' ino' nb c := by
  refine ⟨length.trans h.length, ?_, fun i k hk => ?_, h.small, free.trans h.count, h.held⟩
  · rw [free]
    exact h.filled.congr data addr
  · rw [h.filled.ref_congr data addr]
    exact h.mapped i k hk

section Inodes

variable {β : Type} {F : Prop} {s : Image} {Q : β → Image → Prop} {c : ℕ → List Byte} {i : ℕ}

def Image.putInode (s : Image) (ip : Inode) : Image :=
  s.write (L.iblock ip.inum) (ip.encode (s.sects (L.iblock ip.inum)))

theorem Image.putInode_data {ip : Inode} (hi : ip.inum < inodeRoom) {b : ℕ}
    (data : nmeta ≤ b ∨ b = 1) : (s.putInode ip).sects b = s.sects b := by
  have bounds := iblock_bounds hi
  exact update_of_ne (by omega) ..

theorem makes_winode {ip : Inode} {Q : Unit → Image → Prop} (length : s.length = FSSIZE)
    (hi : ip.inum < inodeRoom) (post : Q () (s.putInode ip)) : Makes F (winode ip) s Q := by
  have inside : L.iblock ip.inum < FSSIZE := lt_trans (iblock_bounds hi).2 (by decide)
  exact makes_rsect length inside (makes_wsect_end length inside post)

theorem makes_rinode {f : Inode → MkProg β} (length : s.length = FSSIZE) (hi : i < inodeRoom)
    (rest : Makes F (f (disk s.sects i)) s Q) : Makes F (rinode i >>= f) s Q := by
  have inside : L.iblock i < FSSIZE := lt_trans (iblock_bounds hi).2 (by decide)
  rw [disk, if_pos hi] at rest
  exact makes_rsect length inside rest

theorem makes_iappend {p : List Byte} (h : Built s c) (pos : 0 < i) (born : i < s.freeinode)
    (bad : ¬ Room (update c i (c i ++ p)) → F) :
    Makes F (iappend i p) s fun _ s' =>
      Built s' (update c i (c i ++ p)) ∧ s'.freeinode = s.freeinode := by
  have hi : i < inodeRoom := lt_of_lt_of_le born h.room
  have blocks : ∀ n, n = (c i ++ p).length → update (fun j => blocksOf (c j).length) i
      (blocksOf n) = fun j => blocksOf (update c i (c i ++ p) j).length := by
    rintro n rfl
    funext j
    by_cases hj : j = i
    · subst hj
      rw [update_self, update_self]
    · rw [update_of_ne hj, update_of_ne hj]
  have total : (c i).length + p.length = (c i ++ p).length := length_append.symm
  unfold iappend
  refine makes_rinode h.draft.length hi ?_
  rw [h.size i pos born]
  refine bind ((makes_iappendFrom _ h.draft hi rfl rfl (le_refl _) ?_).mono ?_)
  · rw [blocks _ total]
    exact bad
  rintro ⟨off, din⟩ s₁ ⟨rfl, keeps, head, draft⟩
  dsimp only at head draft ⊢
  rw [blocks _ total] at draft
  have self : din.inum = i := (congrArg inum head).trans (disk_inum s.sects i)
  have short : (c i).length + p.length < 2 ^ 32 := by
    have held := draft.held i
    have small := draft.small i hi
    rw [update_self] at held small
    rw [total]
    exact lt_of_le_of_lt (le_trans held (Nat.mul_le_mul_right _ small)) (by decide)
  refine makes_winode draft.length (self.symm ▸ hi) ?_
  have nodes : disk (s₁.putInode { din with
      size := BitVec.ofNat 32 ((c i).length + p.length) }).sects =
      update (disk s.sects) i { din with
        size := BitVec.ofNat 32 ((c i).length + p.length) } := by
    refine (disk_encode s₁.sects (self.symm ▸ hi)).trans ?_
    rw [disk_congr keeps.low, self]
  refine ⟨⟨?_, ?_, ?_, fun j hj later => ?_, fun j hj later => ?_, fun j unborn => ?_, ?_⟩,
    keeps.freeinode⟩
  · rw [nodes]
    refine draft.congr rfl rfl
      (fun b hb => putInode_data (self.symm ▸ hi) (.inl hb)) fun j k => ?_
    by_cases hj : j = i
    · subst hj
      rw [update_self, update_self]
      rfl
    · rw [update_of_ne hj, update_of_ne hj]
  · exact keeps.freeinode ▸ h.pos
  · exact keeps.freeinode ▸ h.room
  · rw [nodes]
    by_cases same : j = i
    · subst same
      rw [update_self]
      exact (congrArg type head).trans (h.type j pos born)
    · rw [update_of_ne same]
      exact h.type j hj (keeps.freeinode ▸ later)
  · rw [nodes]
    by_cases same : j = i
    · subst same
      rw [update_self, update_self, ← total]
      exact (BitVec.toNat_ofNat ..).trans (Nat.mod_eq_of_lt short)
    · rw [update_of_ne same, update_of_ne same]
      exact h.size j hj (keeps.freeinode ▸ later)
  · have unborn' : j = 0 ∨ s.freeinode ≤ j := keeps.freeinode ▸ unborn
    have same : j ≠ i := by omega
    rw [nodes, update_of_ne same, update_of_ne same]
    exact h.free j unborn'
  · rw [putInode_data (self.symm ▸ hi) (.inr rfl), keeps.low 1 (by decide)]
    exact h.super

theorem makes_ialloc {type : BitVec 16} {f : ℕ → MkProg β} (h : Built s c)
    (room : s.freeinode < inodeRoom) (htype : type = typeOf s.freeinode)
    (rest : ∀ s', Built s' c → s'.freeinode = s.freeinode + 1 →
      Makes F (f s.freeinode) s' Q) : Makes F (ialloc type >>= f) s Q := by
  unfold ialloc
  rw [bind_assoc]
  refine makes_nextInode ?_
  rw [bind_assoc]
  refine bind (makes_winode h.draft.length room ?_)
  rw [pure_bind]
  refine rest _ ?_ rfl
  have nodes : disk (putInode { s with freeinode := s.freeinode + 1 }
      (newInode s.freeinode type)).sects =
      update (disk s.sects) s.freeinode (newInode s.freeinode type) :=
    disk_encode s.sects room
  have unborn := h.free s.freeinode (.inr (le_refl _))
  have split : ∀ j, j < s.freeinode + 1 → j = s.freeinode ∨ j ≠ s.freeinode ∧ j < s.freeinode := by
    intro j hj
    omega
  refine ⟨?_, Nat.succ_pos _, room, fun j hj later => ?_, fun j hj later => ?_, fun j hj => ?_, ?_⟩
  · rw [nodes]
    refine h.draft.congr rfl rfl (fun b hb => putInode_data room (.inl hb)) fun j k => ?_
    by_cases hj : j = s.freeinode
    · subst hj
      rw [update_self, unborn.1, addr_fresh]
      exact addr_fresh s.freeinode type k
    · rw [update_of_ne hj]
  · rw [nodes]
    rcases split j later with rfl | ⟨ne, born⟩
    · rw [update_self]
      exact htype
    · rw [update_of_ne ne]
      exact h.type j hj born
  · rw [nodes]
    rcases split j later with rfl | ⟨ne, born⟩
    · rw [update_self, unborn.2]
      rfl
    · rw [update_of_ne ne]
      exact h.size j hj born
  · have unborn' : j = 0 ∨ s.freeinode + 1 ≤ j := hj
    have pos := h.pos
    rw [nodes, update_of_ne (by omega)]
    exact h.free j (by omega)
  · rw [putInode_data room (.inr rfl)]
    exact h.super

end Inodes

/-! ## The main program -/

/-- The bytes of the directory entries of the files, which start with inode `n`. -/
def entries : ℕ → List Arg → List Byte
  | _, [] => []
  | n, a :: args => dirent n (Name.ofChars a.name) ++ entries (n + 1) args

/-- What the inodes of the image contain when the files `args` have been added: inode 1 is the root
directory, and the files follow. -/
def files (args : List Arg) : ℕ → List Byte
  | 0 => []
  | 1 => dirent ROOTINO Fs.dot ++ dirent ROOTINO Fs.dotdot ++ entries 2 args
  | i + 2 => (args[i]?.map Arg.contents).getD []

/-- The arguments with which `mkfs` runs to its end: they name files that exist and whose names have
no slash, and the files fit on the disk. -/
structure Suitable (args : List Arg) : Prop where
  room : Room (files args)
  slash : ∀ a ∈ args, 47 ∉ a.shortname
  opens : ∀ a ∈ args, a.reads.isSome

theorem entries_append (n : ℕ) (args : List Arg) (a : Arg) :
    entries n (args ++ [a]) = entries n args ++ dirent (n + args.length) (Name.ofChars a.name) := by
  induction args generalizing n with
  | nil => exact append_nil _
  | cons b args ih =>
    simp only [cons_append, entries, ih, append_assoc, length_cons]
    rw [add_right_comm, add_assoc]

theorem files_file (args : List Arg) (i : ℕ) :
    files args (i + 2) = (args[i]?.map Arg.contents).getD [] := rfl

theorem file_ne_root (n : ℕ) : n + 2 ≠ ROOTINO := Nat.succ_succ_ne_one n

theorem files_append (args : List Arg) (a : Arg) :
    files (args ++ [a]) = update (update (files args) ROOTINO
      (files args ROOTINO ++ dirent (args.length + 2) (Name.ofChars a.name))) (args.length + 2)
      a.contents := by
  funext i
  match i with
  | 0 => rfl
  | 1 =>
    rw [update_of_ne (file_ne_root _).symm, update_self]
    simp only [files, entries_append, append_assoc]
    rw [add_comm args.length]
  | i + 2 =>
    by_cases new : i = args.length
    · subst new
      rw [update_self]
      simp [files]
    · rw [update_of_ne (by omega), update_of_ne (file_ne_root _)]
      simp only [files]
      by_cases old : i < args.length
      · rw [getElem?_append_left old]
      · rw [getElem?_eq_none (by rw [length_append, length_singleton]; omega),
          getElem?_eq_none (Nat.le_of_not_lt old)]

theorem files_free (args : List Arg) : files args (args.length + 2) = [] := by
  simp only [files, getElem?_eq_none (le_refl _), Option.map_none, Option.getD_none]

theorem length_le_append {α : Type} (l m : List α) : l.length ≤ (l ++ m).length := by
  rw [length_append]
  exact Nat.le_add_right _ _

theorem files_length_le (args rest : List Arg) (i : ℕ) :
    (files args i).length ≤ (files (args ++ rest) i).length := by
  induction rest generalizing args with
  | nil => rw [append_nil]
  | cons a rest ih =>
    have step : (files args i).length ≤ (files (args ++ [a]) i).length := by
      rw [files_append]
      by_cases new : i = args.length + 2
      · subst new
        rw [files_free]
        exact zero_le
      · rw [update_of_ne new]
        by_cases root : i = ROOTINO
        · subst root
          rw [update_self]
          exact length_le_append _ _
        · rw [update_of_ne root]
    have rest := ih (args ++ [a])
    rw [append_assoc, singleton_append] at rest
    exact le_trans step rest

section Main

variable {F : Prop} {s : Image} {c : ℕ → List Byte} {i : ℕ} {args : List Arg}

theorem makes_iappendAll {reads : List (List Byte)} (h : Built s c) (pos : 0 < i)
    (born : i < s.freeinode) (bad : ¬ Room (update c i (c i ++ reads.flatten)) → F) :
    Makes F (iappendAll i reads) s fun _ s' =>
      Built s' (update c i (c i ++ reads.flatten)) ∧ s'.freeinode = s.freeinode := by
  induction reads generalizing s c with
  | nil =>
    refine makes_ret ⟨?_, rfl⟩
    rw [flatten_nil, append_nil, update_eq_self]
    exact h
  | cons buf reads ih =>
    have all : update (update c i (c i ++ buf)) i
        (update c i (c i ++ buf) i ++ reads.flatten) =
        update c i (c i ++ (buf :: reads).flatten) := by
      rw [update_idem, update_self, append_assoc, flatten_cons]
    refine bind ((makes_iappend h pos born fun beyond => bad fun room => beyond ?_).mono ?_)
    · refine room.mono fun j => ?_
      by_cases hj : j = i
      · subst hj
        rw [update_self, update_self, flatten_cons, ← append_assoc]
        exact length_le_append _ _
      · rw [update_of_ne hj, update_of_ne hj]
    · rintro _ s' ⟨built, same⟩
      have rest := ih built (same ▸ born) (all.symm ▸ bad)
      rw [all, same] at rest
      exact rest

theorem makes_addFile {a : Arg} (h : Built s (files args)) (next : s.freeinode = args.length + 2)
    (few : args.length + 2 < inodeRoom) (room : ¬ Room (files (args ++ [a])) → F)
    (slash : 47 ∈ a.shortname → F) (opens : a.reads = none → F) :
    Makes F (addFile ROOTINO a) s fun _ s' =>
      Built s' (files (args ++ [a])) ∧ s'.freeinode = args.length + 3 := by
  unfold addFile
  refine makes_assert (fun some => slash (of_not_not some)) fun _ => ?_
  cases hreads : a.reads with
  | none => exact makes_fail (opens hreads)
  | some reads =>
    have contents : a.contents = reads.flatten := by
      rw [Arg.contents, hreads]
      rfl
    have free := files_free args
    have type : T_FILE = typeOf s.freeinode := by
      rw [next]
      exact (if_neg (file_ne_root _)).symm
    refine makes_ialloc h (next ▸ few) type fun s₁ built₁ next₁ => ?_
    rw [next] at next₁ ⊢
    have total := files_append args a
    have after : update (update (files args) ROOTINO
        (files args ROOTINO ++ dirent (args.length + 2) (Name.ofChars a.name))) (args.length + 2)
        (update (files args) ROOTINO (files args ROOTINO ++
          dirent (args.length + 2) (Name.ofChars a.name)) (args.length + 2) ++ reads.flatten) =
        files (args ++ [a]) := by
      rw [total, update_of_ne (file_ne_root _), free, contents]
      rfl
    refine bind ((makes_iappend built₁ one_pos (next₁ ▸ Nat.le_add_left _ _)
      fun beyond => room fun fits => beyond ?_).mono ?_)
    · refine fits.mono fun j => ?_
      rw [total]
      by_cases new : j = args.length + 2
      · subst new
        rw [update_of_ne (file_ne_root _), free]
        exact zero_le
      · rw [update_of_ne new]
    · rintro _ s₂ ⟨built₂, same₂⟩
      refine (makes_iappendAll built₂ (by omega) (by omega) (by rw [after]; exact room)).mono ?_
      rintro _ s₃ ⟨built₃, same₃⟩
      rw [after] at built₃
      exact ⟨built₃, by omega⟩

theorem makes_addFiles {rest args : List Arg} (h : Built s (files args))
    (next : s.freeinode = args.length + 2) (few : (args ++ rest).length + 2 ≤ inodeRoom)
    (bad : ¬ Suitable (args ++ rest) → F) :
    Makes F (addFiles ROOTINO rest) s fun _ s' =>
      Built s' (files (args ++ rest)) ∧ s'.freeinode = (args ++ rest).length + 2 := by
  induction rest generalizing s args with
  | nil =>
    rw [append_nil] at few ⊢
    exact makes_ret ⟨h, next⟩
  | cons a rest ih =>
    have mem : a ∈ args ++ a :: rest := mem_append_right _ mem_cons_self
    have regroup : args ++ a :: rest = args ++ [a] ++ rest := by
      rw [append_assoc, singleton_append]
    have count : (args ++ a :: rest).length = args.length + 1 + rest.length := by
      rw [length_append, length_cons]
      omega
    refine bind ((makes_addFile h next (by omega) (fun beyond => bad fun ok => beyond ?_)
      (fun some => bad fun ok => ok.slash a mem some) fun none => bad fun ok => ?_).mono ?_)
    · exact ok.room.mono fun j => regroup ▸ files_length_le (args ++ [a]) rest j
    · have opens := ok.opens a mem
      rw [none] at opens
      cases opens
    · rintro _ s₁ ⟨built, next₁⟩
      have grown := ih built
        (by rw [next₁, length_append, length_singleton]) (regroup ▸ few) (regroup ▸ bad)
      rw [← regroup] at grown
      exact grown

theorem makes_getFreeblock {β : Type} {Q : β → Image → Prop} {f : ℕ → MkProg β}
    (rest : Makes F (f s.freeblock) s Q) : Makes F (getFreeblock >>= f) s Q :=
  Prog.Total.op trivial rfl rest

def Image.blank (n : ℕ) : Image := ⟨fun _ _ => 0, n, 1, nmeta⟩

theorem makes_zeroes : Makes F (Prog.loop (fun i => wsect i fun _ => 0) 0 FSSIZE) start
    fun _ s' => s' = .blank FSSIZE := by
  have step : ∀ i s, 0 ≤ i → i < 0 + FSSIZE → s = blank i →
      Makes F (wsect i fun _ => 0) s fun _ s' => s' = .blank (i + 1) := by
    rintro i _ - below rfl
    rw [zero_add] at below
    have place := sector_eq (lt_trans below (by decide : FSSIZE < 2 ^ 22))
    have same : update (fun _ _ => 0 : ℕ → Block) i (fun _ => 0) = fun _ _ => 0 :=
      update_eq_self i _
    refine Prog.Total.op (r := ()) (t := .blank (i + 1)) trivial ?_ ⟨trivial, rfl⟩
    simp only [exec, blank, place, same, max_eq_right (Nat.le_succ i)]
  have loop := Prog.Total.loop (J := fun n s => s = blank n) FSSIZE (fun _ _ _ => trivial)
    step (rfl : start = blank 0)
  rw [zero_add] at loop
  exact loop

theorem built_blank : Built ((blank FSSIZE).write 1 superblockSect) fun _ => [] := by
  have zero : ∀ b ≠ 1, ((blank FSSIZE).write 1 superblockSect).sects b = fun _ => 0 :=
    fun b hb => update_of_ne hb ..
  have nodes : ∀ i, disk ((blank FSSIZE).write 1 superblockSect).sects i =
      fresh i 0 := by
    intro i
    unfold disk
    split_ifs with hi
    · rw [inodes, zero _ (Nat.ne_of_gt (iblock_bounds hi).1), decode_zero]
    · rfl
  have none : ∀ r, ref ((blank FSSIZE).write 1 superblockSect).sects
      (disk ((blank FSSIZE).write 1 superblockSect).sects) r = none := by
    intro r
    refine if_neg fun valid => valid.2 ?_
    simp [slot, nodes]
  have sum : total (fun _ => blocksOf ([] : List Byte).length) = 0 :=
    Finset.sum_eq_zero fun _ _ => rfl
  refine ⟨⟨rfl, ⟨le_refl _, by decide, ?_, fun b hb => ?_, fun i bn b hbn own => ?_⟩,
    fun i k hk => ?_, fun _ _ => zero_le, ?_, fun _ => Nat.le_refl _⟩, Nat.one_pos,
    by decide, fun i pos born => ?_, fun i pos born => ?_, fun i _ => ⟨nodes i, rfl⟩, rfl⟩
  · refine ⟨fun r b own => ?_, fun r _ b own => ?_, fun _ => by rintro ⟨⟩, fun _ => by rintro ⟨⟩,
      nodup_nil, fun b data => ?_⟩
    · rw [none] at own
      cases own
    · rw [none] at own
      cases own
    · simp only [none, reduceCtorEq, exists_false, not_mem_nil, or_false, iff_false]
      exact not_lt.mpr data.1
  · exact zero b (Nat.ne_of_gt (lt_of_lt_of_le (by decide) hb))
  · rw [none] at own
    cases own
  · rw [none]
    refine iff_of_false (by rintro ⟨⟩) ?_
    unfold Needed
    split_ifs with low
    · exact Nat.not_lt_zero k
    · exact fun high => low (Nat.le_trans high zero_le)
  · rw [sum]
    rfl
  · exact absurd born (not_lt.mpr pos)
  · exact absurd born (not_lt.mpr pos)

theorem files_nil : update (update (fun _ => []) ROOTINO
    ([] ++ dirent ROOTINO Fs.dot)) ROOTINO
      (dirent ROOTINO Fs.dot ++ dirent ROOTINO Fs.dotdot) = files [] := by
  funext i
  match i with
  | 0 => rfl
  | 1 => exact (append_nil _).symm
  | i + 2 => rfl

theorem makes_makeRoot (bad : ¬ Room (files []) → F) : Makes F makeRoot start fun rootino s' =>
    rootino = ROOTINO ∧ Built s' (files []) ∧ s'.freeinode = 2 := by
  unfold makeRoot
  refine bind (makes_zeroes.mono ?_)
  rintro _ s rfl
  refine makes_wsect rfl (by decide) ?_
  refine makes_ialloc built_blank (by decide) rfl fun s₁ built₁ next₁ => ?_
  refine makes_assert (fun ne => absurd rfl ne) fun _ => ?_
  change s₁.freeinode = 2 at next₁
  have born₁ : ROOTINO < s₁.freeinode := next₁ ▸ Nat.one_lt_two
  refine bind ((makes_iappend built₁ one_pos born₁ fun beyond => bad fun room =>
    beyond (room.mono fun j => ?_)).mono ?_)
  · by_cases root : j = ROOTINO
    · subst root
      rw [update_self, ← files_nil, update_self]
      exact length_le_append _ _
    · rw [update_of_ne root]
      exact zero_le
  rintro _ s₂ ⟨built₂, same₂⟩
  refine bind ((makes_iappend built₂ one_pos (same₂ ▸ born₁) fun beyond => bad ?_).mono ?_)
  · rw [← files_nil]
    exact beyond
  rintro _ s₃ ⟨built₃, same₃⟩
  refine makes_ret ⟨rfl, ?_, by omega⟩
  rw [← files_nil]
  exact built₃

/-- The image when `main` ends, from the image before the size of the root directory is changed. -/
def Image.finish (s : Image) : Image :=
  (s.putInode (rounded (disk s.sects ROOTINO))).write L.bmapstart (bitmap s.freeblock)

theorem makes_main (few : args.length + 2 ≤ inodeRoom)
    (bad : ¬ Suitable args → F) : Makes F (main args) start fun _ s' =>
      ∃ s, Built s (files args) ∧ s.freeinode = args.length + 2 ∧ s' = s.finish := by
  unfold main
  refine bind ((makes_makeRoot fun beyond => bad fun ok => beyond ?_).mono ?_)
  · exact ok.room.mono (files_length_le [] args)
  rintro _ s₁ ⟨rfl, built₁, next₁⟩
  refine bind ((makes_addFiles built₁ next₁ few bad).mono ?_)
  rintro _ s ⟨built, next⟩
  have root : ROOTINO < inodeRoom := by decide
  refine bind (makes_rinode built.draft.length root (makes_winode built.draft.length ?_ ?_))
  · rw [rounded, disk_inum]
    exact root
  refine makes_getFreeblock (makes_assert (fun large => absurd ?_ large) fun _ => ?_)
  · exact lt_of_le_of_lt built.draft.filled.room (by decide)
  · exact makes_wsect_end built.draft.length (by decide) ⟨s, built, next, rfl⟩

/-- `mkfs` does on an image of zeroes what it does after it has written the zeroes. -/
theorem main_run (args : List Arg) : (main args).run exec start =
    (writeRoot >>= writeFiles args).run exec (.blank FSSIZE) := by
  have zeroes : (Prog.loop (fun i => wsect i fun _ => 0) 0 FSSIZE).run exec start =
      (.ok (), .blank FSSIZE) := by
    rcases Prog.Total.run (makes_zeroes (F := False)) with ⟨r, ret, same⟩ | ⟨-, -, no⟩
    · exact Prod.ext ret same
    · exact no.elim
  have root : makeRoot.run exec start = writeRoot.run exec (.blank FSSIZE) :=
    Prog.run_bind_ok _ zeroes
  rw [Prog.run_bind, ← root, ← Prog.run_bind]
  rfl

theorem Makes.exits {x : MkProg Unit} {Q : Unit → Image → Prop} (h : Makes F x start Q) :
    (∃ img, exits x = some img ∧ Q () img) ∨ exits x = none ∧ F := by
  unfold Mkfs.exits
  rcases h.run with ⟨a, returns, post⟩ | ⟨e, raises, fails⟩
  · refine .inl ⟨(x.run exec start).2, ?_, post⟩
    rw [← Prod.eta (x.run exec start), returns]
  · refine .inr ⟨?_, fails⟩
    rw [← Prod.eta (x.run exec start), raises]

theorem mkfs_finish (few : args.length + 2 ≤ inodeRoom) {img : Image} (done : mkfs args = some img) :
    ∃ s, Built s (files args) ∧ s.freeinode = args.length + 2 ∧ img = s.finish := by
  have made := (makes_main (F := True) few fun _ => trivial).exits
  rcases made with ⟨img', done', post⟩ | ⟨failed, -⟩
  · obtain rfl := Option.some.inj (done.symm.trans done')
    exact post
  · cases done.symm.trans failed

theorem mkfs_exits (few : args.length + 2 ≤ inodeRoom) (ok : Suitable args) :
    ∃ img, mkfs args = some img := by
  rcases (makes_main few fun bad => bad ok).exits with ⟨img, done, -⟩ | ⟨-, impossible⟩
  · exact ⟨img, done⟩
  · exact impossible.elim

end Main

end Xv6.Mkfs
