import Xv6.Fs.Coherence
import Xv6.Mkfs.Format

/-!
# Agreement of the image builder and the kernel

The functions of the kernel read from the image of `mkfs` what was put into it: `dirlookup` finds every
name in the root directory, `readi` returns the contents of every file, and `balloc` returns only blocks
that `mkfs` has not used.
-/

namespace Xv6.Mkfs

open List Option Fs Name Image


variable {args : List Arg} {a : Arg} {k : ℕ}

/-! ## Contents of the finished image -/

section Contents

variable {s : Image} {c : ℕ → List Byte} {i : ℕ}

theorem Built.readable (h : Built s c) (hi : i < inodeArea) {p : ℕ}
    (hp : p / BSIZE < blocksOf (c i).length) :
    Readable L.Home s.finish.sects (inodes L s.finish.sects i) p ∧
      fileByte s.finish.sects (inodes L s.finish.sects i) p = (c i).getD p 0 := by
  have filled := h.draft.filled
  have inside : p / BSIZE < MAXFILE :=
    lt_of_lt_of_le hp (h.draft.small i (lt_trans hi (by decide)))
  have mapped := (finish_mapped h hi inside).mpr hp
  obtain ⟨b, own⟩ := isSome_iff_exists.mp ((h.draft.isSome inside).mpr hp)
  obtain ⟨-, held, -⟩ := ref_eq_some.mp own
  have place : slot s.finish.sects (inodes L s.finish.sects i) (dataSlot (p / BSIZE)) = b :=
    (finish_slot h hi).trans held
  have data := filled.alloc.inside _ _ own
  refine ⟨⟨inside, mapped, place ▸ data.home, fun far => ?_⟩, ?_⟩
  · have nonzero := addr_ne_of_slot mapped far
    rw [finish_inodes hi, addr_finalInode] at nonzero ⊢
    exact (filled.alloc.inside _ _ (ref_indirect nonzero)).home
  · rw [fileByte, place, finish_data data.1,
      filled.bytes i _ b inside own _ (Nat.mod_lt _ (by decide)), Nat.div_add_mod']

theorem div_lt_blocksOf {p n : ℕ} (hp : p < n) : p / BSIZE < blocksOf n := by
  simp only [blocksOf, BSIZE]
  omega

end Contents

/-! ## Running the kernel on the image -/

def result {α : Type} (x : FsProg α) (σ : Store) : Except (Halt Panic) α :=
  (x.run FsState.exec (.start σ)).1

theorem result_eq {α : Type} {x : FsProg α} {σ : Store} {B : ℕ → Prop} {a : α}
    (h : Looks NoPanic B x σ (· = a)) : result x σ = .ok a := by
  have total := h (.start σ) [] []
    ⟨rfl, rfl, fun _ h => h, fun _ h => absurd h not_mem_nil⟩ rfl
  rcases total.run with ⟨b, returns, -, -, rfl⟩ | ⟨e, -, impossible⟩
  · exact returns
  · exact impossible.elim

theorem looks_ilock_allocated {σ : Store} {n : ℕ} (hn : n < L.ninodes)
    (type : (inodes L σ n).type ≠ 0) :
    Looks NoPanic L.Home (ilock L none n) σ (· = inodes L σ n) := by
  refine looks_bread (L.home_iblock hn) rfl ?_
  split_ifs with free
  · exact absurd free type
  · exact looks_ret rfl

theorem total_ballocFrom {M : Layout} {s : FsState} (size : 0 < M.size) (free : s.held = []) :
    (ballocFrom M 1 0).Total FsState.exec NoPanic (fun _ => True) s fun b _ =>
      b = 0 ∨ ∃ bi, b = 0 + bi ∧ bi < min BPB (M.size - 0) ∧
        (s.store (M.bblock 0)).bit bi = false := by
  have empty : M.bblock 0 ∉ s.held := free ▸ not_mem_nil
  have erased : (M.bblock 0 :: s.held).erase (M.bblock 0) = [] :=
    (erase_cons_head _ _).trans free
  rw [ballocFrom, if_pos size]
  refine Prog.Total.op trivial (if_neg empty) ?_
  simp only [Prog.bind]
  cases found : firstClear (s.store (M.bblock 0)) (min BPB (M.size - 0)) with
  | none => exact Prog.Total.op trivial (if_pos mem_cons_self) ⟨trivial, .inl rfl⟩
  | some bi =>
    have unlocked : 0 + bi ∉ (M.bblock 0 :: s.held).erase (M.bblock 0) :=
      erased ▸ not_mem_nil
    refine Prog.Total.op trivial (if_pos mem_cons_self) ?_
    refine Prog.Total.op trivial (if_pos mem_cons_self) ?_
    refine Prog.Total.op trivial (if_pos mem_cons_self) ?_
    refine Prog.Total.op trivial (if_neg unlocked) ?_
    refine Prog.Total.op trivial (if_pos mem_cons_self) ?_
    refine Prog.Total.op trivial (if_pos mem_cons_self) ?_
    refine Prog.Total.op trivial (if_pos mem_cons_self) ?_
    exact ⟨trivial, .inr ⟨bi, rfl, firstClear_some found⟩⟩

theorem balloc_result (σ : Store) :
    ∃ b, result (Fs.balloc L) σ = .ok b ∧ (b = 0 ∨ b < FSSIZE ∧ ¬ Fs.Used L σ b) := by
  have one : Fs.balloc L = Fs.ballocFrom L 1 0 := congrArg (Fs.ballocFrom L · 0) (by decide)
  have total := total_ballocFrom (M := L) (s := .start σ) (by decide) rfl
  rw [← one] at total
  rcases total.run with ⟨b, returns, post⟩ | ⟨e, -, impossible⟩
  · refine ⟨b, returns, post.imp_right ?_⟩
    rintro ⟨bi, rfl, inside, clear⟩
    have bound : bi < FSSIZE := lt_of_lt_of_le inside (by decide)
    have place : L.bblock (0 + bi) = L.bblock 0 := by
      change (0 + bi) / 8192 + 45 = 45
      simp only [FSSIZE] at bound
      omega
    have index : (0 + bi) % BPB = bi := by
      simp only [BPB, BSIZE, FSSIZE] at bound ⊢
      omega
    refine ⟨by omega, fun used => ?_⟩
    rw [Fs.Used, place, index] at used
    exact Bool.false_ne_true (clear.symm.trans used)
  · exact impossible.elim

/-! ## The root directory -/

theorem getD_dirent (inum : ℕ) (name : Name) {j : ℕ} (hj : j < DIRENT) :
    (dirent inum name).getD j 0 = (Dirent.make inum name).byte j := by
  rw [dirent, getD_eq_getElem _ _ (by rw [length_map, length_range]; exact hj),
    getElem_map, getElem_range]

theorem getD_entries {n k : ℕ} (ha : args[k]? = some a) {j : ℕ}
    (hj : j < DIRENT) : (entries n args).getD (DIRENT * k + j) 0 =
      (Dirent.make (n + k) (ofChars a.name)).byte j := by
  induction args generalizing n k with
  | nil => cases ha
  | cons b args ih =>
    have length := length_dirent n (ofChars b.name)
    cases k with
    | zero =>
      obtain rfl : b = a := some.inj ha
      rw [entries, mul_zero, zero_add, getD_append _ _ _ _ (length.symm ▸ hj),
        getD_dirent _ _ hj, add_zero]
    | succ k =>
      have place : DIRENT * (k + 1) + j - DIRENT = DIRENT * k + j := by
        simp only [DIRENT]
        omega
      have later : DIRENT ≤ DIRENT * (k + 1) + j := by
        simp only [DIRENT]
        omega
      rw [entries, getD_append_right _ _ _ _ (length.symm ▸ later), length, place,
        ih (n := n + 1) ha, add_right_comm, add_assoc]

def rootDirent (args : List Arg) : ℕ → Dirent
  | 0 => Dirent.make ROOTINO dot
  | 1 => Dirent.make ROOTINO dotdot
  | k + 2 => Dirent.make (k + 2) (ofChars ((args[k]?.map Arg.name).getD []))

theorem getD_root (hk : k < args.length + 2) {j : ℕ} (hj : j < DIRENT) :
    (files args ROOTINO).getD (DIRENT * k + j) 0 = (rootDirent args k).byte j := by
  have first := length_dirent ROOTINO dot
  have second := length_dirent ROOTINO dotdot
  have parts : files args ROOTINO = _ := append_assoc ..
  rw [parts]
  match k with
  | 0 =>
    rw [mul_zero, zero_add, getD_append _ _ _ _ (first.symm ▸ hj), getD_dirent _ _ hj]
    rfl
  | 1 =>
    rw [getD_append_right _ _ _ _ (first.symm ▸ Nat.le_add_right _ _), first,
      mul_one, Nat.add_sub_cancel_left, getD_append _ _ _ _ (second.symm ▸ hj),
      getD_dirent _ _ hj]
    rfl
  | k + 2 =>
    have place : DIRENT * (k + 2) + j - DIRENT - DIRENT = DIRENT * k + j := by
      simp only [DIRENT]
      omega
    have later : DIRENT ≤ DIRENT * (k + 2) + j - DIRENT := by
      simp only [DIRENT]
      omega
    obtain ⟨a, ha⟩ : ∃ a, args[k]? = some a := by
      rw [getElem?_eq_getElem (by omega)]
      exact ⟨_, rfl⟩
    rw [getD_append_right _ _ _ _ (first.symm ▸ le_trans later (Nat.sub_le _ _)), first,
      getD_append_right _ _ _ _ (second.symm ▸ later), second, place, getD_entries ha hj,
      rootDirent, ha, add_comm 2]
    rfl

/-! ## Names -/

theorem Arg.shortname_subset (a : Arg) : a.shortname ⊆ a.path := by
  unfold Arg.shortname
  split_ifs
  · exact drop_subset _ _
  · exact List.Subset.refl _

theorem Arg.name_ne (a : Arg) : ∀ c ∈ a.name, c ≠ 0 := by
  intro c hc
  refine a.path_ne c (a.shortname_subset ?_)
  unfold Arg.name at hc
  split_ifs at hc
  · exact drop_subset _ _ hc
  · exact hc

theorem Arg.slash (h : 47 ∉ a.name) : 47 ∉ a.shortname := by
  intro mem
  unfold Arg.name at h
  split_ifs at h with underscore
  · cases hs : a.shortname with
    | nil => rw [hs] at mem; cases mem
    | cons c cs =>
      rw [hs] at mem h underscore
      obtain rfl : c = 95 := some.inj underscore
      rcases mem_cons.mp mem with same | later
      · exact absurd same (by decide)
      · exact h later
  · exact h mem

theorem eq_of_take {l m : List Byte} (short : m.length < DIRSIZ)
    (same : l.take DIRSIZ = m.take DIRSIZ) : l = m := by
  have whole : m.take DIRSIZ = m := take_of_length_le (le_of_lt short)
  rw [whole] at same
  have length := congrArg List.length same
  rw [length_take] at length
  rw [← same, take_of_length_le (by omega)]

/-! ## The files that are given -/

/-- Arguments for which the image is complete: they name files that can be opened, have different
names and fit on the disk. -/
structure Input (args : List Arg) : Prop where
  few : args.length ≤ 198
  opens : ∀ a ∈ args, a.reads.isSome
  size : ∀ a ∈ args, a.contents.length ≤ MAXFILE * BSIZE
  slash : ∀ a ∈ args, 47 ∉ a.name
  dots : ∀ a ∈ args, a.name ≠ [46] ∧ a.name ≠ [46, 46]
  distinct : (args.map fun a => a.name.take DIRSIZ).Nodup
  fits : blocksUsed args ≤ FSSIZE

theorem Input.room (h : Input args) : args.length + 2 ≤ inodeRoom := by
  have few := h.few
  change args.length + 2 ≤ 224
  omega

theorem Input.suitable (h : Input args) : Suitable args :=
  ⟨room_files h.room h.size h.fits, fun a ha => Arg.slash (h.slash a ha), h.opens⟩

theorem Input.before (h : Input args) (ha : args[k]? = some a)
    {l : ℕ} (hl : l < k + 2) : ofChars a.name ≠ strncpy (rootDirent args l).name := by
  have mem := mem_of_getElem? ha
  have nonzero := a.name_ne
  match l with
  | 0 =>
    rw [rootDirent, Dirent.name_make, strncpy_strncpy, dot, strncpy_ofChars (by decide)]
    exact fun same =>
      (h.dots a mem).1 (eq_of_take (by decide) (ofChars_inj nonzero (by decide) same))
  | 1 =>
    rw [rootDirent, Dirent.name_make, strncpy_strncpy, dotdot, strncpy_ofChars (by decide)]
    exact fun same =>
      (h.dots a mem).2 (eq_of_take (by decide) (ofChars_inj nonzero (by decide) same))
  | l + 2 =>
    have bound : k < args.length := (List.getElem?_eq_some_iff.mp ha).1
    obtain ⟨b, hb⟩ : ∃ b, args[l]? = some b := by
      rw [getElem?_eq_getElem (by omega)]
      exact ⟨_, rfl⟩
    rw [rootDirent, Dirent.name_make, strncpy_strncpy, hb, map_some, getD_some,
      strncpy_ofChars b.name_ne]
    intro same
    have differ := nodup_iff_getElem?_ne_getElem?.mp h.distinct l k (by omega)
      (by rw [length_map]; exact bound)
    rw [getElem?_map, getElem?_map, ha, hb] at differ
    exact differ (congrArg some (ofChars_inj nonzero b.name_ne same).symm)

/-! ## Agreement -/

/-- Look up a name in the root directory: the inode number of the entry and its offset. -/
def lookupRoot (name : Name) : FsProg (Option (ℕ × ℕ)) := do
  let dp ← ilock L none ROOTINO
  let (found, _) ← dirlookup L dp name
  pure found

/-- Read `len` bytes from a file: the size of the file and the bytes. -/
def readFile (inum : ℕ) (off len : BitVec 32) : FsProg (ℕ × Option (List Byte)) := do
  let ip ← ilock L none inum
  let (data, _) ← readi L ip (fun _ => true) off len
  pure (ip.size.toNat, data)

section Agreement

variable {s : Image} {args : List Arg}

section

variable (h : Built s (files args))
include h

theorem Built.lookup (next : s.freeinode = args.length + 2) (input : Input args)
    (ha : args[k]? = some a) {name : Name} (hname : strncpy name = ofChars a.name) :
    result (lookupRoot name) s.finish.sects = .ok (some (k + 2, DIRENT * (k + 2))) := by
  have few := input.few
  have bound : k < args.length := (List.getElem?_eq_some_iff.mp ha).1
  have born : ROOTINO < s.freeinode := by rw [next]; exact Nat.le_add_left _ _
  have root := finish_inodes (s := s) (by decide : ROOTINO < inodeArea)
  have dir : (inodes L s.finish.sects ROOTINO).type = T_DIR := by
    rw [root, type_finalInode, h.type ROOTINO one_pos born]
    rfl
  have size := size_root h next
  rw [← root] at size
  have whole : DIRENT * (args.length + 2) ≤ (inodes L s.finish.sects ROOTINO).size.toNat := by
    rw [size]
    simp only [DIRENT, BSIZE]
    omega
  have below : ∀ p < DIRENT * (args.length + 2),
      Readable L.Home s.finish.sects (inodes L s.finish.sects ROOTINO) p ∧
        fileByte s.finish.sects (inodes L s.finish.sects ROOTINO) p =
          (files args ROOTINO).getD p 0 :=
    fun p hp => h.readable (by decide) (div_lt_blocksOf (length_root args ▸ hp))
  have entry : ∀ l < args.length + 2,
      direntAt s.finish.sects (inodes L s.finish.sects ROOTINO) l = rootDirent args l := by
    intro l hl
    refine Bytes.ext_byte fun j hj => ?_
    rw [← getD_root hl hj, ← (below _ ?_).2, Bytes.byte, dif_pos hj]
    · rfl
    · simp only [DIRENT] at hj ⊢
      omega
  have made : rootDirent args (k + 2) = Dirent.make (k + 2) (ofChars a.name) := by
    rw [rootDirent, ha]
    rfl
  have number : (Dirent.make (k + 2) (ofChars a.name)).inum = k + 2 :=
    Dirent.inum_make (by omega) _
  have here := (entry (k + 2) (by omega)).trans made
  refine result_eq (Looks.bind ((looks_ilock_allocated (by decide) ?_).mono ?_))
  · rw [dir]
    decide
  rintro dp rfl
  refine Looks.bind ((looks_dirlookup (B := L.Home) (m := k + 2) dir ?_ ?_ ?_ ?_ ?_).mono ?_)
  · simp only [DIRENT] at whole
    omega
  · intro p hp
    refine (below p ?_).1
    simp only [DIRENT]
    omega
  · rw [here, number]
    exact Nat.succ_ne_zero _
  · rw [here, Dirent.name_make, strncpy_strncpy, strncpy_ofChars a.name_ne, hname]
  · intro l hl
    rw [entry l (by omega), hname]
    exact input.before ha hl
  · rintro r rfl
    refine looks_ret ?_
    rw [here, number]

theorem Built.read (next : s.freeinode = args.length + 2) (input : Input args) (ha : args[k]? = some a)
    {off len : BitVec 32} (small : off.toNat + len.toNat < 2 ^ 32) :
    result (readFile (k + 2) off len) s.finish.sects =
      .ok (a.contents.length, some ((a.contents.drop off.toNat).take len.toNat)) := by
  have few := input.few
  have bound : k < args.length := (List.getElem?_eq_some_iff.mp ha).1
  have hi : k + 2 < inodeArea := by
    change k + 2 < 208
    omega
  have contents : files args (k + 2) = a.contents := by
    rw [files_file, ha]
    rfl
  have file : inodes L s.finish.sects (k + 2) = disk s.sects (k + 2) :=
    (finish_inodes hi).trans (finalInode_of_ne (file_ne_root k))
  have size : (inodes L s.finish.sects (k + 2)).size.toNat = a.contents.length := by
    rw [file, h.size (k + 2) (Nat.succ_pos _) (by omega), contents]
  have below : ∀ p < a.contents.length,
      Readable L.Home s.finish.sects (inodes L s.finish.sects (k + 2)) p ∧
        fileByte s.finish.sects (inodes L s.finish.sects (k + 2)) p = a.contents.getD p 0 :=
    fun p hp => contents ▸ h.readable hi (div_lt_blocksOf (contents.symm ▸ hp))
  have bytes : ((List.range (min len.toNat (a.contents.length - off.toNat))).map fun i =>
      fileByte s.finish.sects (inodes L s.finish.sects (k + 2)) (off.toNat + i)) =
      (a.contents.drop off.toNat).take len.toNat := by
    refine ext_getElem ?_ fun i hi hi' => ?_
    · simp only [length_map, length_range, length_take, length_drop]
    · simp only [length_map, length_range] at hi
      rw [getElem_map, getElem_range, getElem_take, getElem_drop,
        (below _ (by omega)).2, getD_eq_getElem]
  refine result_eq (Looks.bind ((looks_ilock_allocated ?_ ?_).mono ?_))
  · change k + 2 < 200
    omega
  · rw [file, h.type (k + 2) (Nat.succ_pos _) (by omega), typeOf, if_neg (file_ne_root k)]
    decide
  rintro ip rfl
  refine Looks.bind ((looks_readi_bytes (B := L.Home) (fun _ => true) off len
    fun p _ _ hp => (below p (size ▸ hp)).1).mono ?_)
  rintro r ⟨-, all⟩
  have data := all (fun _ => rfl) small
  rw [size, bytes] at data
  refine looks_ret ?_
  rw [size, data]

theorem Built.ref_of_refs {i k b : ℕ}
    (own : refs L s.finish.sects (inodes L s.finish.sects) (i, k) = some b) :
    ref s.sects (disk s.sects) (i, k) = some b := by
  obtain ⟨hi, -, hk, place, nonzero⟩ := refs_eq_some.mp own
  have area : i < inodeArea := lt_trans hi (by decide)
  rw [finish_slot h area] at place
  exact ref_eq_some.mpr ⟨hk, place, nonzero⟩

theorem Built.owner (next : s.freeinode = args.length + 2)
    (few : args.length ≤ 198) {i k b : ℕ} (own : ref s.sects (disk s.sects) (i, k) = some b) :
    refs L s.finish.sects (inodes L s.finish.sects) (i, k) = some b := by
  obtain ⟨hk, place, nonzero⟩ := ref_eq_some.mp own
  have born : 0 < i ∧ i < s.freeinode := by
    by_contra unborn
    rw [(h.free i (by omega)).1] at place
    refine nonzero (place ▸ ?_)
    simp [slot]
  have hi : i < L.ninodes := by
    change i < 200
    omega
  have area : i < inodeArea := lt_trans hi (by decide)
  refine refs_eq_some.mpr ⟨hi, ?_, hk, (finish_slot h area).trans place, nonzero⟩
  rw [finish_inodes area, type_finalInode, h.type i born.1 born.2, typeOf]
  split_ifs <;> decide

theorem Built.ownership (next : s.freeinode = args.length + 2)
    (few : args.length ≤ 198) : Fs.BlockOwnership L s.finish.sects where
  injective i k i' k' b own own' :=
    Prod.ext_iff.mp (h.draft.filled.alloc.inj _ _ b (h.ref_of_refs own) (h.ref_of_refs own'))
  range i k b own := h.draft.filled.alloc.inside _ _ (h.ref_of_refs own)
  bitmap b hb := by
    rw [finish_used h hb]
    by_cases low : b < L.nmeta
    · exact iff_of_true (lt_of_lt_of_le low h.draft.filled.low) (.inl low)
    · rw [h.draft.filled.alloc.used_iff b ⟨Nat.le_of_not_lt low, hb⟩]
      constructor
      · rintro (⟨⟨i, k⟩, own⟩ | none)
        · exact .inr ⟨i, k, h.owner next few own⟩
        · cases none
      · rintro (low' | ⟨i, k, own⟩)
        · exact absurd low' low
        · exact .inl ⟨(i, k), h.ref_of_refs own⟩

end

end Agreement

/-- The image holds the files `args` for the functions of the kernel. -/
structure Agrees (args : List Arg) (img : Image) : Prop where
  /-- The super block describes the layout. -/
  super : ∀ k < 8, ((img.sects 1).word (4 * k) 4).toNat = [FSMAGIC, L.size, L.size - L.nmeta,
    L.ninodes, L.nlog, L.logstart, L.inodestart, L.bmapstart].getD k 0
  /-- A name buffer with the name of a file is found in the root directory. -/
  lookup : ∀ k a, args[k]? = some a → ∀ name, strncpy name = ofChars a.name →
    result (lookupRoot name) img.sects = .ok (some (k + 2, DIRENT * (k + 2)))
  /-- Reading from the inode returns the size and the bytes of the file. -/
  read : ∀ k a, args[k]? = some a → ∀ off len : BitVec 32, off.toNat + len.toNat < 2 ^ 32 →
    result (readFile (k + 2) off len) img.sects =
      .ok (a.contents.length, some ((a.contents.drop off.toNat).take len.toNat))
  /-- No block belongs to two slots. -/
  injective : ∀ i k i' k' b, refs L img.sects (inodes L img.sects) (i, k) = some b →
    refs L img.sects (inodes L img.sects) (i', k') = some b → i = i' ∧ k = k'
  /-- The blocks of files have been used. -/
  range : ∀ i k b, refs L img.sects (inodes L img.sects) (i, k) = some b →
    L.nmeta ≤ b ∧ b < img.freeblock
  bitmap : ∀ b < FSSIZE, Fs.Used L img.sects b ↔ b < img.freeblock
  /-- A new block is no metadata block and no block of a file. -/
  balloc : ∃ b, result (Fs.balloc L) img.sects = .ok b ∧ (b = 0 ∨ img.freeblock ≤ b ∧ b < FSSIZE)

theorem word_superblockSect (hk : k < 8) :
    (superblockSect.word (4 * k) 4).toNat = superblock.getD k 0 := by
  have word : superblockSect.word (4 * k) 4 = BitVec.ofNat 32 (superblock.getD k 0) :=
    Bytes.word_eq_of_byte fun j hj => by
      have index : (4 * k + j) / 4 = k := by omega
      have within : (4 * k + j) % 4 = j := by omega
      rw [Bytes.byte, dif_pos (by simp only [BSIZE]; omega), superblockSect]
      simp only [index, within]
  rw [word, BitVec.toNat_ofNat]
  interval_cases k <;> rfl

theorem finish_super {s : Image} {c : ℕ → List Byte} (h : Built s c) :
    s.finish.sects 1 = superblockSect := by
  have apart : 1 ≠ L.bmapstart := by decide
  have kept : s.finish.sects 1 = (s.putInode (rounded (disk s.sects ROOTINO))).sects 1 := by
    simp only [finish, write, Function.update_of_ne apart]
  exact kept.trans ((putInode_data (root_lt s.sects) (.inr rfl)).trans h.super)

/-- For files that fit, `mkfs` runs to its end and the kernel finds the files in its image. -/
theorem mkfs_agrees (args : List Arg) (input : Input args) :
    ∃ img, mkfs args = some img ∧ Agrees args img := by
  obtain ⟨img, done⟩ := mkfs_exits input.room input.suitable
  obtain ⟨s, built, next, rfl⟩ := mkfs_finish input.room done
  have filled := built.draft.filled
  refine ⟨s.finish, done, fun k hk => ?_, fun k a ha name hname => built.lookup next input ha hname,
    fun k a ha off len small => built.read next input ha small,
    (built.ownership next input.few).injective,
    fun i k b own => filled.range (built.ref_of_refs own), fun b hb => finish_used built hb, ?_⟩
  · rw [finish_super built, word_superblockSect hk]
    rfl
  · obtain ⟨b, returns, post⟩ := balloc_result s.finish.sects
    refine ⟨b, returns, post.imp_right ?_⟩
    rintro ⟨inside, unused⟩
    rw [finish_used built inside] at unused
    exact ⟨Nat.le_of_not_lt unused, inside⟩

def catFile : Arg where
  path := Arg.user ++ [95, 99, 97, 116]
  reads := some [[7, 8], [9]]
  path_ne := by decide
  reads_le := by
    intro chunks given
    obtain rfl := some.inj given
    decide

theorem mkfs_agrees_catFile : Input [catFile] ∧ ∃ img, mkfs [catFile] = some img ∧
    Agrees [catFile] img := by
  have input : Input [catFile] :=
    ⟨by decide, by decide, by decide, by decide, by decide, by decide, by decide⟩
  exact ⟨input, mkfs_agrees [catFile] input⟩

theorem mkfs_wellFormed (input : Input args) {img : Image}
    (done : mkfs args = some img) (odd : (args.length + 2) % (BSIZE / DIRENT) ≠ 0) :
    Fs.BlockOwnership L img.sects ∧ Fs.NoHoles L img.sects := by
  obtain ⟨s, built, next, rfl⟩ := mkfs_finish input.room done
  refine ⟨built.ownership next input.few, fun i hi type => ?_⟩
  exact (built.holeFree_iff next).mpr odd i (lt_trans hi (by decide)) type

/-- Started on an image of `mkfs`, the file system on disk stays well formed in every state that calls
reach, and every valid buffer agrees with the disk. -/
theorem mkfs_runs (input : Input args) {img : Image} (done : mkfs args = some img)
    (odd : (args.length + 2) % (BSIZE / DIRENT) ≠ 0) {s : Fs.DiskSys}
    (reach : Fs.DiskSys.Reachable L img.sects s) :
    Fs.BlockOwnership L s.machine.disk ∧ Fs.NoHoles L s.machine.disk ∧ Fs.Coherent s.machine := by
  have inv := reach.inv (wellFormed_iff.mpr (mkfs_wellFormed input done odd)) (by decide)
  obtain ⟨owned, full⟩ := wellFormed_iff.mp inv.files.image
  refine ⟨owned, full, fun i hi dev valid => ?_⟩
  rw [(inv.rest.alone 0).contents rfl trivial hi ⟨dev, rfl⟩ valid nofun,
    view_of_empty inv.rest.empty]

/-- On the image with the file `cat` the first two bytes of the file are overwritten. -/
theorem mkfs_runs_catFile : ∃ img s, mkfs [catFile] = some img ∧
    Fs.DiskSys.call L 0 (.writei 2 (fun _ => some 1) 0 2) (.boot L img.sects) = .ok s ∧
      Fs.BlockOwnership L s.machine.disk ∧ Fs.NoHoles L s.machine.disk ∧ Fs.Coherent s.machine := by
  have input : Input [catFile] :=
    ⟨by decide, by decide, by decide, by decide, by decide, by decide, by decide⟩
  obtain ⟨img, done⟩ := mkfs_exits input.room input.suitable
  have image : ((writeRoot >>= writeFiles [catFile]).run exec (.blank FSSIZE)).2 = img := by
    rw [mkfs, exits, main_run] at done
    split at done
    case h_1 s run =>
      rw [run]
      exact some.inj done
    case h_2 => cases done
  have returns : (Fs.DiskSys.call L 0 (.writei 2 (fun _ => some 1) 0 2) (.boot L
      ((writeRoot >>= writeFiles [catFile]).run exec (.blank FSSIZE)).2.sects)).isOk = true := by
    set_option maxRecDepth 2000 in decide
  rw [image] at returns
  cases wrote : Fs.DiskSys.call L 0 (.writei 2 (fun _ => some 1) 0 2) (.boot L img.sects) with
  | error e =>
    rw [wrote] at returns
    cases returns
  | ok s =>
    have aligned : Fs.FsCall.Aligned (.writei 2 (fun _ => some 1) 0 2) :=
      alignedFault_of_mapped (fun u => some_ne_none _) _ _
    exact ⟨img, s, done, wrote, mkfs_runs input done (by decide)
      (.call 0 _ .boot (by decide) aligned wrote)⟩

end Xv6.Mkfs
