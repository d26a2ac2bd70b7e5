import Xv6.Fs.Contents
import Xv6.Fs.Lookup
import Xv6.Lib.Slots

/-!
# Directories are finite maps

The entries of a directory as a table of slots, and what `dirlookup`, `dirlink` and the removal of an
entry do to it, over every sequence of calls that starts with an empty directory.
-/

namespace Xv6.Fs

open Function List BitVec Dirent FsState Returns

open Slots (Holds FiniteMap Write)

variable {h : List (DirCall × Bool)}

/-! ## Names and entries -/

instance : DecidableEq Name := fun s t =>
  decidable_of_iff (∀ i, s i = t i) funext_iff.symm

/-- A C string, without the zero byte at its end. -/
structure CString where
  chars : List Byte
  nonzero : ∀ c ∈ chars, c ≠ 0

/-- What `namecmp` and `strncpy` read of a string. -/
def CString.name (s : CString) : Name := Name.ofChars s.chars

theorem CString.strncpy_name (s : CString) : strncpy s.name = s.name := strncpy_ofChars s.nonzero

theorem ofChars_byte (cs : List Byte) {i : ℕ} (hi : i < DIRSIZ) :
    (Name.ofChars cs).byte i = cs.getD i 0 := dif_pos hi

theorem CString.name_eq_iff (s t : CString) :
    s.name = t.name ↔ s.chars.take DIRSIZ = t.chars.take DIRSIZ := by
  refine ⟨ofChars_inj s.nonzero t.nonzero, fun same => Bytes.ext_byte fun i hi => ?_⟩
  have equal := congrArg (·[i]?.getD 0) same
  simp only [getElem?_take, if_pos hi] at equal
  rw [CString.name, CString.name, ofChars_byte _ hi, ofChars_byte _ hi, getD_eq_getElem?_getD,
    getD_eq_getElem?_getD, equal]

/-- An entry as a slot: free, or with a name and an inode number. -/
def Dirent.slot (de : Dirent) : Option (Name × ℕ) :=
  if de.inum = 0 then none else some (strncpy de.name, de.inum)

def dirSlots (σ : Store) (dp : Inode) (i : ℕ) : Option (Name × ℕ) := (direntAt σ dp i).slot

theorem Dirent.slot_eq_none {de : Dirent} : de.slot = none ↔ de.inum = 0 := by
  unfold slot
  split_ifs with free
  · exact iff_of_true rfl free
  · exact iff_of_false nofun free

theorem Dirent.slot_eq_some {de : Dirent} {k : Name} {v : ℕ} :
    de.slot = some (k, v) ↔ de.inum ≠ 0 ∧ strncpy de.name = k ∧ de.inum = v := by
  unfold slot
  split_ifs with free
  · exact iff_of_false nofun fun h => h.1 free
  · rw [Option.some.injEq, Prod.mk.injEq, and_iff_right free]

theorem Dirent.slot_make {inum : ℕ} (low : 1 ≤ inum) (high : inum ≤ 65535) (s : CString) :
    (make inum s.name).slot = some (s.name, inum) := by
  have number := inum_make (show inum < 2 ^ 16 by omega) s.name
  rw [slot_eq_some, number, name_make, strncpy_strncpy, s.strncpy_name]
  exact ⟨by omega, rfl, rfl⟩

theorem Dirent.slot_zero : slot (fun _ => 0) = none := by
  rw [slot_eq_none, inum, Bytes.word_zero]
  rfl

/-! ## The invariant -/

variable {L : Layout} {σ : Store} {n : ℕ} {m : Name → Option ℕ}

def entryCount (dp : Inode) : ℕ := dp.size.toNat / 16

/-- The image has consistent references, and inode `n` is a directory without holes that stands for
the map `m`. -/
structure DirInv (L : Layout) (σ : Store) (n : ℕ) (m : Name → Option ℕ) : Prop where
  image : ∀ k, FsInv (· = n) L σ (inodes L σ) [] k
  type : (inodes L σ n).type = T_DIR
  size : (inodes L σ n).size.toNat = 16 * entryCount (inodes L σ n)
  map : FiniteMap (dirSlots σ (inodes L σ n)) (entryCount (inodes L σ n)) m

theorem DirInv.allocated_type (h : DirInv L σ n m) : (inodes L σ n).type ≠ 0 := by
  rw [h.type]
  decide

theorem DirInv.mapped (h : DirInv L σ n m) (hn : n < L.ninodes) :
    Mapped σ (inodes L σ n) (inodes L σ n).size.toNat :=
  (h.image n).mapped n hn rfl h.allocated_type

theorem DirInv.readable (h : DirInv L σ n m) (hn : n < L.ninodes) {p : ℕ}
    (hp : p < (inodes L σ n).size.toNat) : Readable L.Data σ (inodes L σ n) p :=
  (h.image n).readable hn rfl h.allocated_type hp

/-! ## Lookup -/

/-- What `dirlookup` finds: the slot of the name, or nothing if there is none. -/
def Finds (σ : Store) (dp : Inode) (k : Name) (r : Option (ℕ × ℕ)) : Prop :=
  (∃ v i, r = some (v, 16 * i) ∧ Holds (dirSlots σ dp) (entryCount dp) k v i) ∨
    r = none ∧ ∀ v i, ¬ Holds (dirSlots σ dp) (entryCount dp) k v i

theorem looks_dirlookup_finds (h : DirInv L σ n m) (hn : n < L.ninodes) (name : Name) :
    Looks NoPanic L.Data (dirlookup L (inodes L σ n) name) σ fun r =>
      Finds σ (inodes L σ n) (strncpy name) r.1 ∧ r.2 = inodes L σ n := by
  have matches_iff : ∀ {i : ℕ}, (((direntAt σ (inodes L σ n) i).inum ≠ 0 &&
      namecmp name (direntAt σ (inodes L σ n) i).name) = true) ↔
      (dirSlots σ (inodes L σ n) i) =
        some (strncpy name, (direntAt σ (inodes L σ n) i).inum) := by
    intro i
    rw [Bool.and_eq_true, namecmp_iff, decide_eq_true_eq, dirSlots, slot_eq_some]
    exact ⟨fun both => ⟨both.1, both.2.symm, rfl⟩, fun all => ⟨all.1, all.2.1.symm⟩⟩
  unfold dirlookup
  rw [if_neg (not_not.mpr h.type)]
  refine Looks.bind ((looks_dirscan_cases (a := 0) h.size (fun p hp => h.readable hn hp) _
    zero_le (by rw [Nat.zero_add]; exact Nat.lt_succ_self _)).mono ?_)
  rintro r (⟨i, hi, -, found, rfl⟩ | ⟨none, rfl⟩)
  · exact looks_ret ⟨.inl ⟨_, i, rfl, hi, matches_iff.mp found⟩, rfl⟩
  · refine looks_ret ⟨.inr ⟨rfl, fun v i holds => ?_⟩, rfl⟩
    have slot := holds.2
    obtain ⟨-, -, rfl⟩ := slot_eq_some.mp holds.2
    have clash := none i zero_le holds.1
    rw [matches_iff.mpr slot] at clash
    cases clash

def lookup (L : Layout) (σ : Store) (n : ℕ) (s : CString) : Option (ℕ × ℕ) :=
  match (dirlookup L (inodes L σ n) s.name).run exec (.start σ) with
  | (.ok r, _) => r.1
  | (.error _, _) => none

theorem DirInv.run_dirlookup (h : DirInv L σ n m) (hn : n < L.ninodes) (s : CString) :
    ∃ s', (dirlookup L (inodes L σ n) s.name).run exec (.start σ) =
      (.ok (lookup L σ n s, inodes L σ n), s') ∧ s'.store = σ ∧
      Finds σ (inodes L σ n) s.name (lookup L σ n s) := by
  obtain ⟨⟨r, dp⟩, s', returns, same, finds, rfl⟩ :=
    ((looks_dirlookup_finds h hn s.name).returns fun _ hb => hb.home).run
  have result : lookup L σ n s = r := by rw [lookup, returns]
  rw [s.strncpy_name] at finds
  rw [result]
  exact ⟨s', returns, same, finds⟩

theorem Finds.unique {dp : Inode} {k : Name} {r r' : Option (ℕ × ℕ)}
    (map : FiniteMap (dirSlots σ dp) (entryCount dp) m) (h : Finds σ dp k r) (h' : Finds σ dp k r') :
    r = r' := by
  rcases h with ⟨v, i, rfl, holds⟩ | ⟨rfl, none⟩
  · rcases h' with ⟨v', i', rfl, holds'⟩ | ⟨rfl, none⟩
    · obtain rfl := map.distinct k v v' i i' holds holds'
      have value := holds.2.symm.trans holds'.2
      cases value
      rfl
    · exact absurd holds (none v i)
  · rcases h' with ⟨v', i', rfl, holds'⟩ | ⟨rfl, -⟩
    · exact absurd holds' (none v' i')
    · rfl

theorem Finds.congr {σ' : Store} {dp dp' : Inode} {k : Name} {r : Option (ℕ × ℕ)}
    (same : ∀ v i, Holds (dirSlots σ' dp') (entryCount dp') k v i ↔
      Holds (dirSlots σ dp) (entryCount dp) k v i) (h : Finds σ dp k r) : Finds σ' dp' k r := by
  rcases h with ⟨v, i, rfl, holds⟩ | ⟨rfl, none⟩
  · exact .inl ⟨v, i, rfl, (same v i).mpr holds⟩
  · exact .inr ⟨rfl, fun v i holds => none v i ((same v i).mp holds)⟩

theorem Finds.value {dp : Inode} {k : Name} {r : Option (ℕ × ℕ)}
    (map : FiniteMap (dirSlots σ dp) (entryCount dp) m) (h : Finds σ dp k r) :
    r.map Prod.fst = m k := by
  rcases h with ⟨v, i, rfl, holds⟩ | ⟨rfl, none⟩
  · exact (map.value holds).symm
  · exact (map.none_iff.mpr none).symm

theorem DirInv.lookup_eq {σ' : Store} {m' : Name → Option ℕ} (h : DirInv L σ n m)
    (h' : DirInv L σ' n m') (hn : n < L.ninodes) (s : CString)
    (same : ∀ v i, Holds (dirSlots σ' (inodes L σ' n)) (entryCount (inodes L σ' n)) s.name v i ↔
      Holds (dirSlots σ (inodes L σ n)) (entryCount (inodes L σ n)) s.name v i) :
    lookup L σ' n s = lookup L σ n s := by
  obtain ⟨-, -, -, finds⟩ := h.run_dirlookup hn s
  obtain ⟨-, -, -, finds'⟩ := h'.run_dirlookup hn s
  exact finds'.unique h'.map (finds.congr same)

/-! ## Writing an entry -/

theorem Mapped.le_max {ip : Inode} {size : ℕ} (h : Mapped σ ip size) : size ≤ MAXFILE * BSIZE := by
  by_contra large
  exact absurd (h MAXFILE (Nat.lt_of_not_le large)).1 (lt_irrefl _)

/-- There is room for an entry behind the last one: the file stays below its largest size, and the
blocks that it needs are free. -/
def CanExtend (L : Layout) (σ : Store) (dp : Inode) : Prop :=
  dp.size.toNat + 16 ≤ MAXFILE * BSIZE ∧
    blocksNeeded σ dp (dp.size.toNat / BSIZE) ≤ freeCount L σ

/-- What the write of the entry `d` to slot `i` leaves; `done` says whether it was written. -/
structure WritesEntry (L : Layout) (σ : Store) (n i : ℕ) (d : Dirent) (done : Bool) (dp : Inode)
    (σ' : Store) : Prop where
  image : ∀ k, FsInv (· = n) L σ' (inodes L σ') [] k
  inode : inodes L σ' n = dp
  type : dp.type = (inodes L σ n).type
  size : dp.size.toNat = if done then max (inodes L σ n).size.toNat (16 * i + 16)
    else (inodes L σ n).size.toNat
  entry : ∀ j, 16 * j + 16 ≤ dp.size.toNat → direntAt σ' dp j =
    if done = true ∧ j = i then d else direntAt σ (inodes L σ n) j
  fails : done = false ↔ i = entryCount (inodes L σ n) ∧ ¬ CanExtend L σ (inodes L σ n)

theorem direntAt_overwrites {src : ℕ → Byte} {i tot : ℕ} {σ' : Store} {ip ip' : Inode}
    (mapped : Mapped σ ip ip.size.toNat) (start : 16 * i ≤ ip.size.toNat) (whole : tot = 16 ∨ tot = 0)
    (size : ip'.size.toNat = max ip.size.toNat (16 * i + tot))
    (bytes : Overwrites src (16 * i) tot σ ip σ' ip') {j : ℕ} (hj : 16 * j + 16 ≤ ip'.size.toNat) :
    direntAt σ' ip' j = if tot = 16 ∧ j = i then (fun l => src l : Dirent) else direntAt σ ip j := by
  funext l
  have hl : l.val < 16 := l.isLt
  have position : (16 * i ≤ 16 * j + l.val ∧ 16 * j + l.val < 16 * i + tot) ∨
      Stored σ ip (16 * j + l.val) := by
    by_cases new : 16 * i ≤ 16 * j + l.val ∧ 16 * j + l.val < 16 * i + tot
    · exact .inl new
    · refine .inr (mapped.stored ?_)
      omega
  rw [direntAt, (bytes _ position).2]
  split_ifs with new here here
  · obtain ⟨-, rfl⟩ := here
    rw [Nat.add_sub_cancel_left]
  · omega
  · omega
  · rfl

theorem returns_writeEntry (h : DirInv L σ n m) (hn : n < L.ninodes) (src : ℕ → Byte) {i : ℕ}
    (hi : i ≤ entryCount (inodes L σ n)) :
    Returns L (writei L (inodes L σ n) (fun j => some (src j)) (BitVec.ofNat 32 (16 * i)) 16) σ
      fun r σ' => WritesEntry L σ n i (fun j => src j) (decide (r.1 = some 16)) r.2 σ' := by
  have size := h.size
  have mapped := h.mapped hn
  have bound : (inodes L σ n).size.toNat ≤ 274432 := mapped.le_max
  have max : MAXFILE * BSIZE = 274432 := rfl
  have offset : (BitVec.ofNat 32 (16 * i)).toNat = 16 * i := by
    rw [toNat_ofNat, Nat.mod_eq_of_lt (by omega)]
  refine (returns_writei h.image hn rfl h.allocated_type (fun j => some (src j))
    (BitVec.ofNat 32 (16 * i)) 16).mono ?_
  rintro ⟨r, dp⟩ σ' writes
  have disk := inodes_closed writes.inv hn
  rw [update_self] at disk
  have image := FsInv.closed writes.inv
  have type := writes.type
  have writes' := writes.writes
  have fails := writes.fails
  simp only [OutOfRange, offset, show (16 : BitVec 32).toNat = 16 from rfl, max] at writes' fails
  by_cases bad : (inodes L σ n).size.toNat < 16 * i ∨ 2 ^ 32 ≤ 16 * i + 16 ∨ 274432 < 16 * i + 16
  · obtain ⟨same, rfl⟩ := fails bad
    obtain ⟨rfl, rfl⟩ := Prod.mk.inj same
    have last : i = entryCount (inodes L σ' n) := by omega
    refine ⟨image, rfl, rfl, rfl, fun j _ => rfl, iff_of_true rfl ⟨last, fun can => ?_⟩⟩
    have room := can.1
    omega
  obtain ⟨tot, rfl, grown, moved⟩ := writes' bad fun _ => rfl
  have aligned : 16 * i % BSIZE + 16 ≤ BSIZE := by
    simp only [BSIZE]
    omega
  -- an entry does not cross the end of a block, so it is written as a whole or not at all
  have whole : tot = 16 ∨ tot = 0 := by
    by_contra part
    have le := moved.le
    have stops := moved.stops (by omega)
    simp only [BSIZE] at aligned stops
    omega
  have starts := moved.starts (by decide)
  have done : decide ((some tot, dp).1 = some 16) = true ↔ tot = 16 := by simp
  have fails_iff : tot = 0 ↔ i = entryCount (inodes L σ n) ∧ ¬ CanExtend L σ (inodes L σ n) := by
    rw [starts]
    constructor
    · intro few
      have last : ¬ i < entryCount (inodes L σ n) := by
        intro inside
        have stored : Stored σ (inodes L σ n) (16 * i) := mapped.stored (by omega)
        rw [blocksNeeded, if_pos stored.2] at few
        exact absurd few (Nat.not_lt_zero _)
      obtain rfl : i = entryCount (inodes L σ n) := by omega
      refine ⟨rfl, fun can => ?_⟩
      rw [← size] at few
      exact absurd few (not_lt.mpr can.2)
    · rintro ⟨rfl, cannot⟩
      rw [← size]
      refine Nat.lt_of_not_le fun enough => cannot ⟨?_, enough⟩
      omega
  refine ⟨image, disk, type, ?_, fun j hj => ?_, ?_⟩
  · simp only [done, grown]
    split_ifs with all
    · rw [all]
    · omega
  · simp only [done]
    exact direntAt_overwrites mapped (by omega) whole grown moved.bytes hj
  · rw [Bool.eq_false_iff, ne_eq, done, ← fails_iff]
    omega

/-! ## Linking and unlinking -/

def NoFreeEntry (σ : Store) (dp : Inode) : Prop :=
  ∀ i < entryCount dp, (direntAt σ dp i).inum ≠ 0

/-- What a call that concerns the name `k` leaves: with `ok` the name has the value `x`, else nothing
has changed. -/
structure DirChange (L : Layout) (σ : Store) (n : ℕ) (m : Name → Option ℕ) (k : Name) (x : Option ℕ)
    (ok : Bool) (dp : Inode) (σ' : Store) : Prop where
  inode : inodes L σ' n = dp
  inv : DirInv L σ' n (if ok then update m k x else m)
  others : ∀ k' v i, (ok = true → k' ≠ k) → (Holds (dirSlots σ' dp) (entryCount dp) k' v i ↔
    Holds (dirSlots σ (inodes L σ n)) (entryCount (inodes L σ n)) k' v i)
  size : dp.size = (inodes L σ n).size ∨
    NoFreeEntry σ (inodes L σ n) ∧ dp.size.toNat = (inodes L σ n).size.toNat + 16

theorem DirChange.refl (h : DirInv L σ n m) (k : Name) (x : Option ℕ) :
    DirChange L σ n m k x false (inodes L σ n) σ :=
  ⟨rfl, h, fun _ _ _ _ => Iff.rfl, .inl rfl⟩

namespace WritesEntry

variable {i : ℕ} {d : Dirent} {dp : Inode} {σ' : Store}

theorem write (h : DirInv L σ n m) (hi : i ≤ entryCount (inodes L σ n))
    (w : WritesEntry L σ n i d true dp σ') :
    dp.size.toNat = 16 * entryCount dp ∧ Write (dirSlots σ (inodes L σ n)) (entryCount (inodes L σ n))
      i d.slot (dirSlots σ' dp) (entryCount dp) := by
  have old := h.size
  have size := w.size
  rw [if_pos rfl] at size
  have count : entryCount dp = max (entryCount (inodes L σ n)) (i + 1) := by
    rw [entryCount, size]
    omega
  refine ⟨by omega, by omega, ?_, fun j hj => by omega, fun j hj hji => ?_⟩
  · rw [dirSlots, w.entry i (by omega), if_pos ⟨rfl, rfl⟩]
  · rw [dirSlots, w.entry j (by omega), if_neg fun both => hji both.2, dirSlots]

theorem failed (h : DirInv L σ n m) (w : WritesEntry L σ n i d false dp σ') (k : Name)
    (x : Option ℕ) : DirChange L σ n m k x false dp σ' := by
  have size : dp.size.toNat = (inodes L σ n).size.toNat := w.size
  have count : entryCount dp = entryCount (inodes L σ n) := by rw [entryCount, size, entryCount]
  have old := h.size
  have same : ∀ k' v i, Holds (dirSlots σ' dp) (entryCount dp) k' v i ↔
      Holds (dirSlots σ (inodes L σ n)) (entryCount (inodes L σ n)) k' v i := by
    intro k' v j
    rw [Holds, Holds, count]
    refine and_congr_right fun hj => ?_
    rw [dirSlots, w.entry j (by omega), if_neg fun both => Bool.false_ne_true both.1, dirSlots]
  obtain ⟨image, rfl, type, -, -, -⟩ := w
  refine ⟨rfl, ⟨image, type.trans h.type, ?_, h.map.congr same⟩, fun k' v j _ => same k' v j,
    .inl (eq_of_toNat_eq size)⟩
  rw [size, count, old]

end WritesEntry

theorem returns_dirlink (h : DirInv L σ n m) (hn : n < L.ninodes) (s : CString) {inum : ℕ}
    (low : 1 ≤ inum) (high : inum ≤ 65535) :
    Returns L (dirlink L (inodes L σ n) s.name inum) σ fun r σ' =>
      DirChange L σ n m s.name (some inum) r.1 r.2 σ' ∧
      (r.1 = false ↔ m s.name ≠ none ∨
        NoFreeEntry σ (inodes L σ n) ∧ ¬ CanExtend L σ (inodes L σ n)) := by
  unfold dirlink
  refine bind (((looks_dirlookup_finds h hn s.name).returns fun _ hb => hb.home).mono ?_)
  rintro ⟨found, dp⟩ σ' ⟨rfl, finds, rfl⟩
  rw [s.strncpy_name] at finds
  have value := finds.value h.map
  dsimp only at value ⊢
  split_ifs with present
  · refine returns_ret ⟨DirChange.refl h _ _, iff_of_true rfl (.inl ?_)⟩
    rw [← value]
    simpa [Option.isSome_iff_ne_none] using present
  have absent : m s.name = none := by
    rw [← value]
    simpa using present
  refine bind (((looks_dirscan_cases (e := .dirlinkRead) (P := fun de => de.inum = 0) (a := 0)
    h.size (fun p hp => h.readable hn hp) _ zero_le
    (by rw [zero_add]; exact Nat.lt_succ_self _)).returns fun _ hb => hb.home).mono ?_)
  rintro r σ₁ ⟨rfl, scan⟩
  -- the scan ends at a free entry or behind the last one
  obtain ⟨i, hi, de, rfl, free, last⟩ : ∃ i ≤ entryCount (inodes L σ₁ n), ∃ de,
      r = (16 * i, de, inodes L σ₁ n) ∧
      (i < entryCount (inodes L σ₁ n) → (direntAt σ₁ (inodes L σ₁ n) i).inum = 0) ∧
      (i = entryCount (inodes L σ₁ n) ↔ NoFreeEntry σ₁ (inodes L σ₁ n)) := by
    rcases scan with ⟨i, hi, -, free, rfl⟩ | ⟨none, rfl⟩
    · have free := of_decide_eq_true free
      exact ⟨i, le_of_lt hi, _, rfl, fun _ => free,
        iff_of_false (ne_of_lt hi) fun full => full i hi free⟩
    · refine ⟨_, le_refl _, _, rfl, fun inside => absurd inside (lt_irrefl _),
        iff_of_true rfl fun i hi => ?_⟩
      exact of_decide_eq_false (none i zero_le hi)
  dsimp only
  refine bind ((returns_writeEntry h hn (make inum s.name).byte hi).mono ?_)
  rintro ⟨r, dp⟩ σ' w
  have whole : (fun j : Fin 16 => (make inum s.name).byte j) = make inum s.name := by
    funext j
    exact dif_pos j.isLt
  rw [whole] at w
  dsimp only at w ⊢
  have fails := w.fails
  refine returns_ret ⟨?_, ?_⟩
  · by_cases done : r = some 16
    · subst done
      obtain ⟨size, write⟩ := WritesEntry.write h hi w
      rw [slot_make low high s] at write
      have empty : ∀ k' v, ¬ Holds (dirSlots σ₁ (inodes L σ₁ n)) (entryCount (inodes L σ₁ n)) k' v i := by
        rintro k' v ⟨inside, holds⟩
        exact (slot_eq_some.mp holds).1 (free inside)
      have map := h.map.insert write (fun inside => slot_eq_none.mpr (free inside)) absent
      have grown := w.size
      rw [if_pos (decide_eq_true rfl)] at grown
      obtain ⟨image, rfl, type, -, -, -⟩ := w
      refine ⟨rfl, ⟨image, type.trans h.type, size, map⟩, fun k' v j other => ?_, ?_⟩
      · refine write.holds_other (fun k'' v'' holds => absurd holds (empty k'' v'')) ?_ (other rfl)
        rintro k'' v'' ⟨⟩
        rfl
      · have old := h.size
        dsimp only
        by_cases inside : i < entryCount (inodes L σ₁ n)
        · refine .inl (eq_of_toNat_eq ?_)
          omega
        · exact .inr ⟨last.mp (by omega), by omega⟩
    · rw [decide_eq_false done] at w ⊢
      exact WritesEntry.failed h w _ _
  · rw [fails, last]
    simp [absent]

theorem returns_setNlink (h : DirInv L σ n m) (hn : n < L.ninodes) (nlink : BitVec 16) :
    Returns L (iupdate L { inodes L σ n with nlink := nlink }) σ fun _ σ' =>
      inodes L σ' n = { inodes L σ n with nlink := nlink } ∧ DirInv L σ' n m ∧
      ∀ k v i, Holds (dirSlots σ' (inodes L σ' n)) (entryCount (inodes L σ' n)) k v i ↔
        Holds (dirSlots σ (inodes L σ n)) (entryCount (inodes L σ n)) k v i := by
  have changed := (h.image n).setFields { inodes L σ n with nlink := nlink } rfl rfl (fun _ => rfl)
    (h.mapped hn)
  refine ((does_close hn changed).returns (iupdate_quiet L _)).mono ?_
  rintro _ σ' ⟨inv, same⟩
  have disk : inodes L σ' n = { inodes L σ n with nlink := nlink } := by
    rw [inodes_closed inv hn, update_self]
  have data : ∀ r b, refs L σ (inodes L σ) r = some b → σ' b = σ b := fun r b ref =>
    same b (((h.image n).alloc.inside r b ref).ne_iblock hn)
  have bytes : Overwrites (fun _ => 0) 0 0 σ (inodes L σ n) σ'
      { inodes L σ n with nlink := nlink } := by
    refine ((Gains.refl (h.image n).open).overwrites _ 0).close (slot_congr (fun _ => rfl) ?_)
      fun p hp => data _ _ (hp.refs hn h.allocated_type rfl)
    exact fun nonzero => data _ _ (refs_indirect hn h.allocated_type nonzero)
  have holds : ∀ k v i, Holds (dirSlots σ' (inodes L σ' n)) (entryCount (inodes L σ' n)) k v i ↔
      Holds (dirSlots σ (inodes L σ n)) (entryCount (inodes L σ n)) k v i := by
    intro k v i
    rw [disk]
    refine and_congr_right fun inside => ?_
    change i < entryCount (inodes L σ n) at inside
    have size := h.size
    have entry : direntAt σ' { inodes L σ n with nlink := nlink } i =
        direntAt σ (inodes L σ n) i := by
      have whole := direntAt_overwrites (i := 0) (h.mapped hn) zero_le (.inr rfl)
        (by dsimp only; omega) bytes (j := i) (by dsimp only; omega)
      rwa [if_neg fun both => absurd both.1 (by decide)] at whole
    rw [dirSlots, entry, dirSlots]
  refine ⟨disk, ⟨FsInv.closed inv, ?_, ?_, h.map.congr holds⟩, holds⟩
  · rw [disk]
    exact h.type
  · rw [disk]
    exact h.size

theorem returns_unlinkEntry (h : DirInv L σ n m) (hn : n < L.ninodes) (s : CString) (dir : Bool) :
    Returns L (unlinkEntry L (inodes L σ n) s.name dir) σ fun r σ' =>
      DirChange L σ n m s.name none r.1 r.2 σ' := by
  unfold unlinkEntry
  by_cases dots : (namecmp s.name dot || namecmp s.name dotdot) = true
  · rw [if_pos dots]
    exact returns_ret (DirChange.refl h _ _)
  rw [if_neg dots]
  refine bind (((looks_dirlookup_finds h hn s.name).returns fun _ hb => hb.home).mono ?_)
  rintro ⟨found, dp⟩ σ₁ ⟨rfl, finds, rfl⟩
  rw [s.strncpy_name] at finds
  rcases finds with ⟨v, i, found, holds⟩ | ⟨found, -⟩
  swap
  · dsimp only at found
    subst found
    exact returns_ret (DirChange.refl h _ _)
  dsimp only at found
  subst found
  have inside := holds.1
  refine bind ((returns_writeEntry h hn (fun _ => 0) (le_of_lt inside)).mono ?_)
  rintro ⟨r, dp⟩ σ₂ w
  dsimp only at w ⊢
  have done : r = some 16 := by
    by_contra failed
    exact absurd (w.fails.mp (decide_eq_false failed)).1 (ne_of_lt inside)
  subst done
  rw [if_pos rfl]
  obtain ⟨size, write⟩ := WritesEntry.write h (le_of_lt inside) w
  rw [slot_zero] at write
  have map := h.map.erase write holds
  have grown := w.size
  rw [if_pos (decide_eq_true rfl)] at grown
  obtain ⟨image, rfl, type, -, -, -⟩ := w
  have old := h.size
  have others : ∀ k' v' j, k' ≠ s.name →
      (Holds (dirSlots σ₂ (inodes L σ₂ n)) (entryCount (inodes L σ₂ n)) k' v' j ↔
        Holds (dirSlots σ₁ (inodes L σ₁ n)) (entryCount (inodes L σ₁ n)) k' v' j) := by
    intro k' v' j other
    refine write.holds_other (fun k'' v'' holds' => ?_) (fun _ _ => nofun) other
    have both := holds.2.symm.trans holds'.2
    cases both
    rfl
  have same : (inodes L σ₂ n).size = (inodes L σ₁ n).size := eq_of_toNat_eq (by omega)
  have inv : DirInv L σ₂ n (update m s.name none) := ⟨image, type.trans h.type, size, map⟩
  split_ifs with directory
  · refine bind ((returns_setNlink inv hn _).mono ?_)
    rintro _ σ₃ ⟨disk, inv', holds'⟩
    refine returns_ret ⟨disk, inv', fun k' v' j other => ?_, .inl same⟩
    rw [← others k' v' j (other rfl), ← holds', disk]
  · exact returns_ret ⟨rfl, inv, fun k' v' j other => others k' v' j (other rfl), .inl same⟩

/-! ## Sequences of calls -/

/-- The calls on a directory.  `unlink` is the removal of an entry, with whether it is the entry of a
directory. -/
inductive DirCall where
  | link (name : CString) (inum : ℕ)
  | unlink (name : CString) (dir : Bool)

namespace DirCall

def name : DirCall → CString
  | link name _ => name
  | unlink name _ => name

def prog (L : Layout) (dp : Inode) : DirCall → FsProg (Bool × Inode)
  | link name inum => dirlink L dp name.name inum
  | unlink name dir => unlinkEntry L dp name.name dir

/-- The inode number of an entry is not zero and fits into it. -/
def Valid : DirCall → Prop
  | link _ inum => 1 ≤ inum ∧ inum ≤ 65535
  | unlink _ _ => True

def value : DirCall → Option ℕ
  | link _ inum => some inum
  | unlink _ _ => none

end DirCall

/-- What the last successful call for a name with the same first `DIRSIZ` bytes has left; the newest
call comes first. -/
def recorded (s : CString) : List (DirCall × Bool) → Option ℕ
  | [] => none
  | (c, ok) :: h =>
      if ok = true ∧ c.name.chars.take DIRSIZ = s.chars.take DIRSIZ then c.value else recorded s h

/-- The runs of calls on the directory `n` from the store `σ₀`, with the results of the calls. -/
inductive DirRun (L : Layout) (n : ℕ) (σ₀ : Store) : List (DirCall × Bool) → Store → Prop where
  | start : DirRun L n σ₀ [] σ₀
  | call {h : List (DirCall × Bool)} {σ : Store} {c : DirCall} {ok : Bool} {dp : Inode} {s : FsState}
      (before : DirRun L n σ₀ h σ) (valid : c.Valid)
      (returns : (c.prog L (inodes L σ n)).run exec (.start σ) = (.ok (ok, dp), s)) :
      DirRun L n σ₀ ((c, ok) :: h) s.store

/-- A directory without entries. -/
structure EmptyDir (L : Layout) (σ : Store) (n : ℕ) : Prop where
  type : (inodes L σ n).type = T_DIR
  size : (inodes L σ n).size.toNat % 16 = 0
  mapped : Mapped σ (inodes L σ n) (inodes L σ n).size.toNat
  free : ∀ i, 16 * i < (inodes L σ n).size.toNat → (direntAt σ (inodes L σ n) i).inum = 0

def recordedMap : List (DirCall × Bool) → Name → Option ℕ
  | [] => fun _ => none
  | (c, ok) :: h =>
      if ok then update (recordedMap h) c.name.name c.value else recordedMap h

theorem recorded_eq (s : CString) (h : List (DirCall × Bool)) : recorded s h = recordedMap h s.name := by
  induction h with
  | nil => rfl
  | cons e h ih =>
    obtain ⟨c, ok⟩ := e
    rw [recorded, recordedMap, ih]
    cases ok with
    | false => rw [if_neg fun both => Bool.false_ne_true both.1, if_neg Bool.false_ne_true]
    | true =>
      rw [if_pos rfl]
      by_cases same : c.name.name = s.name
      · rw [if_pos ⟨rfl, (CString.name_eq_iff _ _).mp same⟩, same, update_self]
      · rw [if_neg fun both => same ((CString.name_eq_iff _ _).mpr both.2),
          update_of_ne (Ne.symm same)]

theorem returns_dirCall (h : DirInv L σ n m) (hn : n < L.ninodes) (c : DirCall) (valid : c.Valid) :
    Returns L (c.prog L (inodes L σ n)) σ fun r σ' =>
      DirChange L σ n m c.name.name c.value r.1 r.2 σ' ∧ ∀ s inum, c = .link s inum →
        (r.1 = false ↔ m s.name ≠ none ∨
          NoFreeEntry σ (inodes L σ n) ∧ ¬ CanExtend L σ (inodes L σ n)) := by
  cases c with
  | link s inum =>
    refine (returns_dirlink h hn s valid.1 valid.2).mono ?_
    rintro r σ' ⟨change, fails⟩
    refine ⟨change, ?_⟩
    rintro s inum ⟨⟩
    exact fails
  | unlink s dir =>
    refine (returns_unlinkEntry h hn s dir).mono ?_
    rintro r σ' change
    exact ⟨change, nofun⟩

theorem EmptyDir.inv (own : BlockOwnership L σ) (empty : EmptyDir L σ n) :
    DirInv L σ n (recordedMap []) := by
  have size := empty.size
  have none : ∀ k v i, ¬ Holds (dirSlots σ (inodes L σ n)) (entryCount (inodes L σ n)) k v i := by
    rintro k v i ⟨inside, holds⟩
    refine (slot_eq_some.mp holds).1 (empty.free i ?_)
    rw [entryCount] at inside
    omega
  refine ⟨own.inv_of_mapped empty.mapped, empty.type, ?_, ?_, fun k v => ?_⟩
  · rw [entryCount]
    omega
  · exact fun k v _ i _ hi => absurd hi (none k v i)
  · exact iff_of_false nofun fun ⟨i, holds⟩ => none k v i holds

theorem DirRun.inv {σ₀ : Store} (own : BlockOwnership L σ₀) (hn : n < L.ninodes)
    (empty : EmptyDir L σ₀ n) (run : DirRun L n σ₀ h σ) : DirInv L σ n (recordedMap h) := by
  induction run with
  | start => exact empty.inv own
  | @call h σ c ok dp s before valid returns ih =>
    obtain ⟨⟨ok', dp'⟩, s', returns', change, -⟩ := (returns_dirCall ih hn c valid).run
    rw [returns'] at returns
    cases returns
    exact change.inv

/-- What a call does to the directory, in a state in which it stands for the names of `h`. -/
structure DirStep (L : Layout) (n : ℕ) (h : List (DirCall × Bool)) (σ : Store) (c : DirCall) (ok : Bool)
    (σ' : Store) : Prop where
  fails_iff : ∀ s inum, c = .link s inum → (ok = false ↔ recorded s h ≠ none ∨
    NoFreeEntry σ (inodes L σ n) ∧ ¬ CanExtend L σ (inodes L σ n))
  failed : ok = false → ∀ t, lookup L σ' n t = lookup L σ n t
  others : ∀ t : CString, t.chars.take DIRSIZ ≠ c.name.chars.take DIRSIZ →
    lookup L σ' n t = lookup L σ n t
  size : (inodes L σ' n).size = (inodes L σ n).size ∨ NoFreeEntry σ (inodes L σ n) ∧
    (inodes L σ' n).size.toNat = (inodes L σ n).size.toNat + 16

/-- The directory is a finite map: that of the calls in `h`. -/
structure DirectoryIsMap (L : Layout) (n : ℕ) (h : List (DirCall × Bool)) (σ : Store) : Prop where
  distinct : ∀ i j, 16 * i < (inodes L σ n).size.toNat → 16 * j < (inodes L σ n).size.toNat →
    (direntAt σ (inodes L σ n) i).inum ≠ 0 → (direntAt σ (inodes L σ n) j).inum ≠ 0 →
    namecmp (direntAt σ (inodes L σ n) i).name (direntAt σ (inodes L σ n) j).name = true → i = j
  size : (inodes L σ n).size.toNat % 16 = 0
  lookup : ∀ s : CString, ∃ r s', (dirlookup L (inodes L σ n) s.name).run exec (.start σ) =
      (.ok (r, inodes L σ n), s') ∧ s'.store = σ ∧ r.map Prod.fst = recorded s h ∧
      ∀ inum off, r = some (inum, off) → ∃ i, off = 16 * i ∧ 16 * i < (inodes L σ n).size.toNat ∧
        (direntAt σ (inodes L σ n) i).inum = inum ∧
        namecmp s.name (direntAt σ (inodes L σ n) i).name = true
  step : ∀ c : DirCall, c.Valid → ∃ ok s', (c.prog L (inodes L σ n)).run exec (.start σ) =
    (.ok (ok, inodes L s'.store n), s') ∧ DirStep L n h σ c ok s'.store

theorem DirInv.step (inv : DirInv L σ n (recordedMap h))
    (hn : n < L.ninodes) (c : DirCall) (valid : c.Valid) :
    ∃ ok s', (c.prog L (inodes L σ n)).run exec (.start σ) =
      (.ok (ok, inodes L s'.store n), s') ∧ DirStep L n h σ c ok s'.store := by
  obtain ⟨⟨ok, dp⟩, s', returns, change, fails⟩ := (returns_dirCall inv hn c valid).run
  obtain ⟨rfl, inv', others, size⟩ := change
  refine ⟨ok, s', returns, ?_, fun failed t => ?_, fun t differ => ?_, size⟩
  · intro s inum hc
    rw [recorded_eq]
    exact fails s inum hc
  · refine inv.lookup_eq inv' hn t fun v i => others _ v i fun done => ?_
    exact absurd (failed.symm.trans done) Bool.false_ne_true
  · refine inv.lookup_eq inv' hn t fun v i => others _ v i fun _ => ?_
    rw [ne_eq, CString.name_eq_iff]
    exact differ

/-- After every sequence of links and removals in an empty directory, the directory is the map of the
names that were linked and not removed since. -/
theorem directory_is_map {σ₀ : Store} (own : BlockOwnership L σ₀) (hn : n < L.ninodes)
    (empty : EmptyDir L σ₀ n) (run : DirRun L n σ₀ h σ) : DirectoryIsMap L n h σ := by
  have inv := run.inv own hn empty
  have size := inv.size
  refine ⟨fun i j hi hj usedi usedj same => ?_, by omega, fun s => ?_, inv.step hn⟩
  · have holds : ∀ i, 16 * i < (inodes L σ n).size.toNat →
        (direntAt σ (inodes L σ n) i).inum ≠ 0 →
        Holds (dirSlots σ (inodes L σ n)) (entryCount (inodes L σ n))
          (strncpy (direntAt σ (inodes L σ n) i).name) (direntAt σ (inodes L σ n) i).inum i :=
      fun i hi used => ⟨by omega, slot_eq_some.mpr ⟨used, rfl, rfl⟩⟩
    have left := holds i hi usedi
    rw [namecmp_iff.mp same] at left
    exact inv.map.distinct _ _ _ _ _ left (holds j hj usedj)
  · obtain ⟨s', returns, same, finds⟩ := inv.run_dirlookup hn s
    refine ⟨_, s', returns, same, ?_, fun inum off found => ?_⟩
    · rw [recorded_eq, finds.value inv.map]
    · rcases finds with ⟨v, i, found', holds⟩ | ⟨none, -⟩
      · obtain ⟨rfl, rfl⟩ := Prod.mk.inj (Option.some.inj (found'.symm.trans found))
        obtain ⟨-, key, number⟩ := slot_eq_some.mp holds.2
        have inside := holds.1
        refine ⟨i, rfl, by omega, number, namecmp_iff.mpr ?_⟩
        rw [s.strncpy_name, key]
      · rw [none] at found
        cases found

def letterA : CString := ⟨[97], by decide⟩

theorem emptyImage_emptyDir : EmptyDir .mkfs emptyImage ROOTINO := by
  have type : (inodes .mkfs emptyImage ROOTINO).type = T_DIR := by
    set_option maxRecDepth 2000 in decide
  have size : (inodes .mkfs emptyImage ROOTINO).size.toNat = 0 := by
    set_option maxRecDepth 2000 in decide
  refine ⟨type, by rw [size], emptyImage_noHoles ROOTINO (by decide) (by rw [type]; decide), ?_⟩
  rw [size]
  exact fun i hi => absurd hi (Nat.not_lt_zero _)

theorem directory_is_map_link : ∃ σ, DirRun .mkfs ROOTINO emptyImage [(.link letterA 5, true)] σ ∧
    DirectoryIsMap .mkfs ROOTINO [(.link letterA 5, true)] σ := by
  have facts : (match ((DirCall.link letterA 5).prog .mkfs (inodes .mkfs emptyImage ROOTINO)).run
      exec (.start emptyImage) with
      | (.ok (ok, _), _) => ok
      | (.error _, _) => false) = true := by
    set_option maxRecDepth 10000 in decide
  split at facts
  case h_1 ok dp s' returns =>
    subst facts
    have run := DirRun.start.call (c := .link letterA 5) ⟨by decide, by decide⟩ returns
    exact ⟨_, run, directory_is_map emptyImage_ownership (by decide) emptyImage_emptyDir run⟩
  case h_2 => cases facts

/-- An image whose bitmap says that block 33 is free; inode 16, an empty directory, is in it. -/
def lostImage : Store := fun b =>
  if b = 33 then Inode.encode ⟨16, T_DIR, 0, 0, 1, 0, 0⟩ fun _ => 0
  else if b = 45 then fun i => if i.val < 4 then 0xff#8 else if i.val = 4 then 0xfd#8
    else if i.val = 5 then 0x3f#8 else 0
  else fun _ => 0

/-- From an image whose bitmap is wrong, `dirlink` gets the block of the inode itself: it succeeds, and
the name is not found. -/
theorem link_lost : EmptyDir .mkfs lostImage 16 ∧ ∃ σ,
    DirRun .mkfs 16 lostImage [(.link letterA 5, true)] σ ∧ lookup .mkfs σ 16 letterA = none := by
  have type : (inodes .mkfs lostImage 16).type = T_DIR := by
    set_option maxRecDepth 2000 in decide
  have size : (inodes .mkfs lostImage 16).size.toNat = 0 := by
    set_option maxRecDepth 2000 in decide
  refine ⟨⟨type, by rw [size], ?_, ?_⟩, ?_⟩
  · rw [size]
    exact fun bn hbn => absurd hbn (Nat.not_lt_zero _)
  · rw [size]
    exact fun i hi => absurd hi (Nat.not_lt_zero _)
  have facts : (match ((DirCall.link letterA 5).prog .mkfs (inodes .mkfs lostImage 16)).run
      exec (.start lostImage) with
      | (.ok (ok, _), s') => decide (ok = true ∧ lookup .mkfs s'.store 16 letterA = none)
      | (.error _, _) => false) = true := by
    set_option maxRecDepth 10000 in decide
  split at facts
  case h_1 ok dp s' returns =>
    obtain ⟨rfl, lost⟩ := of_decide_eq_true facts
    exact ⟨_, DirRun.start.call (c := .link letterA 5) ⟨by decide, by decide⟩ returns, lost⟩
  case h_2 => cases facts

end Xv6.Fs
