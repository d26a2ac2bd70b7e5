import Xv6.Fs.Owned

/-!
# Files keep the ownership of blocks

The rules for the functions of `fs.c` on blocks, inodes and file contents: each of them keeps the
invariant of the block store, also where it fails.
-/

namespace Xv6.Fs

open Function List Does Inode

variable {L : Layout} {σ : Store} {K : List ℕ} {b : ℕ} {Q : Unit → Store → List ℕ → Prop}

/-! ## Blocks -/

def FreeBitmap (L : Layout) (K : List ℕ) : Prop := ∀ c < L.size, L.bblock c ∉ K

theorem freeBitmap_nil : FreeBitmap L [] := fun _ _ => not_mem_nil

theorem freeBitmap_data {a : ℕ} (ha : L.Data a) : FreeBitmap L [a] :=
  fun _ hc mem => ha.ne_bblock hc (mem_singleton.mp mem).symm

theorem does_bzero (free : b ∉ K) (home : L.Home b)
    (post : Q () (update σ b fun _ => 0) K) : Does L (bzero b) σ K Q := by
  unfold bzero
  exact does_bread free home (does_bset mem_cons_self
    (does_logWrite mem_cons_self home (does_brelse_end post)))

theorem firstClear_some {d : Block} {n bi : ℕ} (h : firstClear d n = some bi) :
    bi < n ∧ d.bit bi = false := by
  have clear := find?_some h
  exact ⟨mem_range.mp (mem_of_find?_eq_some h), by simpa using clear⟩

theorem firstClear_none {d : Block} {n bi : ℕ} (h : firstClear d n = none) (hbi : bi < n) :
    d.bit bi = true := by
  simpa using find?_eq_none.mp h bi (mem_range.mpr hbi)

/-- Every block is in use. -/
def DiskFull (L : Layout) (σ : Store) : Prop := ∀ b < L.size, Used L σ b

instance (L : Layout) (σ : Store) (b : ℕ) : Decidable (Used L σ b) := inferInstanceAs (Decidable (_ = _))

def freeCount (L : Layout) (σ : Store) : ℕ := ((Finset.range L.size).filter (¬ Used L σ ·)).card

theorem freeCount_eq_zero : freeCount L σ = 0 ↔ DiskFull L σ := by
  simp [freeCount, DiskFull, Finset.filter_eq_empty_iff]

theorem freeCount_allocated (data : L.Data b) (unused : ¬ Used L σ b) :
    freeCount L (allocated L σ b) + 1 = freeCount L σ := by
  have erased : (Finset.range L.size).filter (¬ Used L (allocated L σ b) ·) =
      ((Finset.range L.size).filter (¬ Used L σ ·)).erase b := by
    ext c
    simp only [Finset.mem_filter, Finset.mem_range, Finset.mem_erase]
    by_cases hc : c < L.size
    · rw [allocated, used_update (data.ne_bblock hc).symm, used_setBit]
      by_cases same : c = b
      · simp [same]
      · simp [same]
    · simp [hc]
  rw [freeCount, erased, freeCount]
  exact Finset.card_erase_add_one (by simp [data.2, unused])

section

variable {F : ℕ → Prop} {ino : ℕ → Inode} {spare : List ℕ} {n : ℕ} {ip ip' ip'' : Inode} {σ' σ'' : Store}
  {src : ℕ → Byte} {off len : BitVec 32}

theorem does_ballocFrom (h : FsInv F L σ ino spare n) {Q : ℕ → Store → List ℕ → Prop}
    (bitmap : FreeBitmap L K) (unlocked : ∀ b, ¬ Used L σ b → b ∉ K) (none : DiskFull L σ → Q 0 σ K)
    (some : ∀ b, L.Data b → ¬ Used L σ b → Q b (allocated L σ b) K) (k : ℕ)
    (aligned : b % BPB = 0) (before : ∀ c < b, c < L.size → Used L σ c)
    (fuel : L.size ≤ b + k * BPB) : Does L (ballocFrom L k b) σ K Q := by
  induction k generalizing b with
  | zero => exact does_ret (none fun c hc => before c (by omega) hc)
  | succ k ih =>
    unfold ballocFrom
    split_ifs with hb
    swap
    · exact does_ret (none fun c hc => before c (by omega) hc)
    refine does_bread (bitmap b hb) (L.home_bblock hb) ?_
    have index : ∀ bi < BPB, (b + bi) % BPB = bi := by
      intro bi low
      simp only [BPB, BSIZE] at aligned low ⊢
      omega
    have place : ∀ bi < BPB, L.bblock (b + bi) = L.bblock b := by
      intro bi low
      simp only [Layout.bblock, BPB, BSIZE] at aligned low ⊢
      omega
    cases found : firstClear (σ (L.bblock b)) (min BPB (L.size - b)) with
    | none =>
      refine does_brelse (ih ?_ (fun c upper hc => ?_) ?_)
      · rw [Nat.add_mod_right, aligned]
      · by_cases lower : c < b
        · exact before c lower hc
        · obtain ⟨bi, rfl⟩ := Nat.exists_eq_add_of_le (Nat.le_of_not_lt lower)
          have low : bi < BPB := by omega
          rw [Used, place bi low, index bi low]
          exact firstClear_none found (by omega)
      · rw [Nat.succ_mul] at fuel
        omega
    | some bi =>
      obtain ⟨inside, clear⟩ := firstClear_some found
      have low : bi < BPB := lt_of_lt_of_le inside (min_le_left _ _)
      have size : b + bi < L.size := by omega
      have unused : ¬ Used L σ (b + bi) := by
        rw [Used, place bi low, index bi low, clear]
        exact Bool.false_ne_true
      have data := h.data_of_unused size unused
      refine does_bset mem_cons_self (does_logWrite mem_cons_self (L.home_bblock hb)
        (does_brelse (bind (does_bzero (unlocked _ unused) data.home ?_))))
      have post := some _ data unused
      rw [allocated, place bi low, index bi low] at post
      exact does_ret post

theorem does_balloc (h : FsInv F L σ ino spare n) {Q : ℕ → Store → List ℕ → Prop}
    (bitmap : FreeBitmap L K) (unlocked : ∀ b, ¬ Used L σ b → b ∉ K) (none : DiskFull L σ → Q 0 σ K)
    (some : ∀ b, L.Data b → ¬ Used L σ b → Q b (allocated L σ b) K) : Does L (balloc L) σ K Q := by
  refine does_ballocFrom h bitmap unlocked none some _ (Nat.zero_mod _) (fun c hc => ?_) ?_
  · exact absurd hc (Nat.not_lt_zero c)
  · simp only [BPB, BSIZE]
    omega

theorem does_bfree (h : FsInv F L σ ino (b :: spare) n)
    (bitmap : FreeBitmap L K) (post : Q () (freed L σ b) K) : Does L (bfree L b) σ K Q := by
  have data := h.alloc.spare_inside b mem_cons_self
  have used : (σ (L.bblock b)).bit (b % BPB) = true := h.alloc.used_of_spare mem_cons_self
  unfold bfree
  refine does_bread (bitmap b data.2) (L.home_bblock data.2) ?_
  rw [if_pos used]
  exact does_bset mem_cons_self (does_logWrite mem_cons_self (L.home_bblock data.2)
    (does_brelse_end post))

/-! ## Inodes -/

theorem does_iupdate (h : FsInv F L σ ino spare n) (hn : n < L.ninodes) (free : L.iblock n ∉ K)
    (post : ∀ σ', (∀ m, FsInv F L σ' ino spare m) → (∀ b, b ≠ L.iblock n → σ' b = σ b) →
      Q () σ' K) : Does L (iupdate L (ino n)) σ K Q := by
  unfold iupdate
  rw [h.inum n]
  exact does_bread free (L.home_iblock hn) (does_bset mem_cons_self
    (does_logWrite mem_cons_self (L.home_iblock hn) (does_brelse_end
      (post _ (h.flush hn) fun _ apart => update_of_ne apart _ _))))

/-! ## Contents -/

theorem dataSlot_ne (bn : ℕ) : dataSlot bn ≠ NDIRECT := by
  unfold dataSlot
  split_ifs <;> omega

theorem dataSlot_lt {bn : ℕ} (hbn : bn < MAXFILE) : dataSlot bn < NSLOT := by
  unfold dataSlot
  split_ifs with direct
  · exact lt_trans direct (by decide)
  · simp only [NSLOT, MAXFILE, NDIRECT, NINDIRECT, BSIZE] at hbn ⊢
    omega

theorem dataSlot_inj {bn bn' : ℕ} (same : dataSlot bn = dataSlot bn') : bn = bn' := by
  unfold dataSlot at same
  split_ifs at same <;> omega

def fileByte (σ : Store) (ip : Inode) (p : ℕ) : Byte :=
  (σ (slot σ ip (dataSlot (p / BSIZE)))).byte (p % BSIZE)

def Stored (σ : Store) (ip : Inode) (p : ℕ) : Prop :=
  p / BSIZE < MAXFILE ∧ slot σ ip (dataSlot (p / BSIZE)) ≠ 0

theorem Mapped.stored {size p : ℕ} (h : Mapped σ ip size) (hp : p < size) : Stored σ ip p :=
  h _ (lt_of_le_of_lt (Nat.div_mul_le_self _ _) hp)

theorem Stored.refs {p : ℕ} (hp : Stored σ ip p) (hn : n < L.ninodes)
    (type : ip.type ≠ 0) (self : ino n = ip) :
    refs L σ ino (n, dataSlot (p / BSIZE)) = some (slot σ ip (dataSlot (p / BSIZE))) := by
  subst self
  exact refs_of_slot hn type (dataSlot_lt hp.1) hp.2

theorem refs_open (hn : n < L.ninodes) (type : ip.type ≠ 0) (nonzero : ip.addr NDIRECT ≠ 0) :
    refs L σ (update ino n ip) (n, NDIRECT) = some (ip.addr NDIRECT) := by
  rw [refs_eq_some, update_self]
  exact ⟨hn, type, by decide, slot_addr (le_refl _), nonzero⟩

def KeepsOthers (L : Layout) (σ : Store) (ino : ℕ → Inode) (n : ℕ) (σ' : Store) : Prop :=
  ∀ i k b, i ≠ n → refs L σ ino (i, k) = some b → σ' b = σ b

namespace KeepsOthers

variable {σ' σ'' : Store} {i : ℕ}

theorem refl (L : Layout) (σ : Store) (ino : ℕ → Inode) (n : ℕ) : KeepsOthers L σ ino n σ :=
  fun _ _ _ _ _ => rfl

theorem slot (h : KeepsOthers L σ ino n σ') (hi : i < L.ninodes) (hin : i ≠ n)
    (type : (ino i).type ≠ 0) (k : ℕ) : slot σ' (ino i) k = slot σ (ino i) k := by
  unfold Fs.slot
  split_ifs with direct zero
  · rfl
  · rfl
  · rw [h i NDIRECT _ hin (refs_indirect hi type zero)]

theorem refs (h : KeepsOthers L σ ino n σ') (hin : i ≠ n) (k : ℕ) :
    refs L σ' ino (i, k) = refs L σ ino (i, k) := by
  unfold Fs.refs
  by_cases valid : i < L.ninodes ∧ (ino i).type ≠ 0
  · rw [h.slot valid.1 hin valid.2]
  · rw [if_neg fun h' => valid ⟨h'.1, h'.2.1⟩, if_neg fun h' => valid ⟨h'.1, h'.2.1⟩]

theorem trans (h : KeepsOthers L σ ino n σ') (h' : KeepsOthers L σ' ino n σ'') :
    KeepsOthers L σ ino n σ'' := by
  intro i k b hin ref
  rw [h' i k b hin (by rwa [h.refs hin]), h i k b hin ref]

theorem byte (h : KeepsOthers L σ ino n σ') (hi : i < L.ninodes) (hin : i ≠ n) (type : (ino i).type ≠ 0)
    {p : ℕ} (hp : Stored σ (ino i) p) : fileByte σ' (ino i) p = fileByte σ (ino i) p := by
  rw [fileByte, h.slot hi hin type, h i _ _ hin (hp.refs hi type rfl), fileByte]

end KeepsOthers

/-! ## Block addresses -/

/-- The inode has gained blocks and lost none. -/
structure Grows (σ : Store) (ip : Inode) (σ' : Store) (ip' : Inode) : Prop where
  inum : ip'.inum = ip.inum
  type : ip'.type = ip.type
  size : ip'.size = ip.size
  slots : ∀ k, slot σ ip k ≠ 0 → slot σ' ip' k = slot σ ip k

namespace Grows

variable {σ' σ'' : Store} {ip ip' ip'' : Inode}

theorem refl (σ : Store) (ip : Inode) : Grows σ ip σ ip := ⟨rfl, rfl, rfl, fun _ _ => rfl⟩

theorem trans (h : Grows σ ip σ' ip') (h' : Grows σ' ip' σ'' ip'') : Grows σ ip σ'' ip'' where
  inum := h'.inum.trans h.inum
  type := h'.type.trans h.type
  size := h'.size.trans h.size
  slots k hk := by rw [h'.slots k (h.slots k hk ▸ hk), h.slots k hk]

theorem mapped {size : ℕ} (h : Grows σ ip σ' ip') (mapped : Mapped σ ip size) : Mapped σ' ip' size := by
  intro bn hbn
  obtain ⟨inside, nonzero⟩ := mapped bn hbn
  exact ⟨inside, by rwa [h.slots _ nonzero]⟩

theorem stored {p : ℕ} (h : Grows σ ip σ' ip') (hp : Stored σ ip p) : Stored σ' ip' p :=
  ⟨hp.1, by rw [h.slots _ hp.2]; exact hp.2⟩

theorem byte {p : ℕ} (h : Grows σ ip σ' ip') (hp : Stored σ ip p)
    (same : σ' (slot σ ip (dataSlot (p / BSIZE))) = σ (slot σ ip (dataSlot (p / BSIZE)))) :
    fileByte σ' ip' p = fileByte σ ip p := by
  rw [fileByte, h.slots _ hp.2, same, fileByte]

end Grows

/-- The open inode has gained blocks, and no byte of a file has changed. -/
structure Gains (F : ℕ → Prop) (L : Layout) (σ : Store) (ino : ℕ → Inode) (n : ℕ) (ip : Inode)
    (σ' : Store) (ip' : Inode) : Prop where
  inv : FsInv F L σ' (update ino n ip') [] n
  grows : Grows σ ip σ' ip'
  others : KeepsOthers L σ ino n σ'
  bytes : ∀ p, Stored σ ip p → fileByte σ' ip' p = fileByte σ ip p

theorem Gains.refl (h : FsInv F L σ (update ino n ip) [] n) : Gains F L σ ino n ip σ ip :=
  ⟨h, Grows.refl σ ip, KeepsOthers.refl L σ ino n, fun _ _ => rfl⟩

theorem Gains.trans (h : Gains F L σ ino n ip σ' ip')
    (h' : Gains F L σ' ino n ip' σ'' ip'') : Gains F L σ ino n ip σ'' ip'' where
  inv := h'.inv
  grows := h.grows.trans h'.grows
  others := h.others.trans h'.others
  bytes p hp := by rw [h'.bytes p (h.grows.stored hp), h.bytes p hp]

theorem slot_allocated (h : FsInv F L σ ino spare n) {b i k : ℕ} (data : L.Data b)
    (unused : ¬ Used L σ b) (hi : i < L.ninodes) (type : (ino i).type ≠ 0) :
    slot (allocated L σ b) (ino i) k = slot σ (ino i) k := by
  rw [allocated, slot_update (h.notIndirect_of_unused unused i hi type)]
  refine slot_update fun nonzero => ?_
  exact (h.alloc.inside _ _ (refs_indirect hi type nonzero)).ne_bblock data.2

theorem allocated_of_ref (h : FsInv F L σ ino spare n) {b c : ℕ} {r : ℕ × ℕ} (data : L.Data b)
    (unused : ¬ Used L σ b) (ref : refs L σ ino r = some c) : allocated L σ b c = σ c := by
  have apart : c ≠ b := by
    rintro rfl
    exact unused (h.alloc.used_of_ref ref)
  rw [allocated, update_of_ne apart, update_of_ne ((h.alloc.inside _ _ ref).ne_bblock data.2)]

/-- What `bmap` leaves for the address `k` of the inode: `b` is the block, or 0 on a full disk. -/
structure MapsAddr (L : Layout) (σ : Store) (ip : Inode) (k b : ℕ) (σ' : Store) (ip' : Inode) :
    Prop where
  addr : b ≠ 0 → b = ip'.addr k
  slots : ∀ j, j ≠ k → slot σ' ip' j = slot σ ip j
  fails : b = 0 ↔ ip.addr k = 0 ∧ DiskFull L σ
  count : freeCount L σ = freeCount L σ' + if b ≠ 0 ∧ ip.addr k = 0 then 1 else 0

theorem does_bmapAddr (h : FsInv F L σ (update ino n ip) [] n)
    (hn : n < L.ninodes) (type : ip.type ≠ 0) {k : ℕ} (hk : k ≤ NDIRECT) :
    Does L (bmapAddr L ip k) σ [] fun r σ' K' => K' = [] ∧ Gains F L σ ino n ip σ' r.2 ∧
      MapsAddr L σ ip k r.1 σ' r.2 := by
  unfold bmapAddr
  have self : update ino n ip n = ip := update_self ..
  split_ifs with empty
  swap
  · refine does_ret ⟨rfl, Gains.refl h, fun _ => rfl, fun _ _ => rfl, ?_, ?_⟩
    · exact iff_of_false empty fun both => empty both.1
    · rw [if_neg fun both => empty both.2, add_zero]
  refine bind (does_balloc h freeBitmap_nil (fun _ _ => not_mem_nil) (fun full => ?_) ?_)
  · rw [if_pos rfl]
    refine does_ret ⟨rfl, Gains.refl h, fun nonzero => absurd rfl nonzero, fun _ _ => rfl,
      iff_of_true rfl ⟨empty, full⟩, ?_⟩
    rw [if_neg fun both => both.1 rfl, add_zero]
  intro b data unused
  rw [if_neg data.ne_zero]
  have fits : b < 2 ^ 32 := lt_trans data.2 (lt_trans L.size_lt (by decide))
  have zeroed : allocated L σ b b = fun _ => 0 := update_self ..
  have linked := (h.allocate data.2 unused).linkAddr hn (by rwa [self]) hk (by rwa [self])
    fun _ => zeroed
  rw [self, update_idem] at linked
  have slots : ∀ j, j ≠ k → slot (allocated L σ b) (ip.setAddr k b) j = slot σ ip j := by
    intro j hj
    have keeps := slot_allocated h (k := j) data unused hn (by rwa [self])
    rw [self] at keeps
    rw [slot_setAddr hk fits empty fun _ => zeroed, keeps, if_neg hj]
  have grows : Grows σ ip (allocated L σ b) (ip.setAddr k b) := by
    refine ⟨rfl, rfl, rfl, fun j hj => slots j ?_⟩
    rintro rfl
    exact hj ((slot_addr hk).trans empty)
  refine does_ret ⟨rfl, ⟨linked, grows, fun i j c hin ref => ?_, fun p hp => ?_⟩, fun _ => ?_, slots,
    iff_of_false data.ne_zero fun both => unused (both.2 b data.2), ?_⟩
  · exact allocated_of_ref h data unused ((refs_other hin).trans ref)
  · exact grows.byte hp (allocated_of_ref h data unused (hp.refs hn type self))
  · rw [addr_setAddr _ hk fits, if_pos rfl]
  · rw [if_pos ⟨data.ne_zero, empty⟩, freeCount_allocated data unused]

theorem does_bmapEntry (h : FsInv F L σ (update ino n ip) [] n) (hn : n < L.ninodes)
    (type : ip.type ≠ 0) (indirect : ip.addr NDIRECT ≠ 0) {j : ℕ} (hj : j < NINDIRECT) :
    Does L (bmapEntry L (ip.addr NDIRECT) j) σ [] fun r σ' K' => K' = [] ∧
      Gains F L σ ino n ip σ' ip ∧ (r ≠ 0 → r = slot σ' ip (NDIRECT + 1 + j)) ∧
      (r = 0 ↔ slot σ ip (NDIRECT + 1 + j) = 0 ∧ DiskFull L σ) ∧ (r = 0 → σ' = σ) := by
  unfold bmapEntry
  have self : update ino n ip n = ip := update_self ..
  have type' : (update ino n ip n).type ≠ 0 := by rwa [self]
  have ref : refs L σ (update ino n ip) (n, NDIRECT) = some (ip.addr NDIRECT) :=
    refs_open hn type indirect
  have data := h.alloc.inside _ _ ref
  have used := h.alloc.used_of_ref ref
  rw [slot_entry indirect]
  refine does_bread not_mem_nil data.home ?_
  split_ifs with empty
  swap
  · refine does_brelse (does_ret ⟨rfl, Gains.refl h, fun _ => ?_, ?_, fun _ => rfl⟩)
    · rw [slot_entry indirect]
    · have nonzero : ((σ (ip.addr NDIRECT)).word (4 * j) 4).toNat ≠ 0 :=
        fun zero => empty (BitVec.eq_of_toNat_eq zero)
      exact iff_of_false nonzero fun both => nonzero both.1
  refine bind (does_balloc h (freeBitmap_data data) ?_ (fun full => ?_) ?_)
  · rintro b unused mem
    rw [mem_singleton.mp mem] at unused
    exact unused used
  · rw [if_pos rfl]
    refine does_brelse (does_ret ⟨rfl, Gains.refl h, fun nonzero => absurd rfl nonzero, ?_,
      fun _ => rfl⟩)
    exact iff_of_true rfl ⟨by rw [empty]; rfl, full⟩
  intro b free unused
  rw [if_neg free.ne_zero]
  have fits : b < 2 ^ 32 := lt_trans free.2 (lt_trans L.size_lt (by decide))
  have same := allocated_of_ref h free unused ref
  have linked := (h.allocate free.2 unused).linkEntry hn type' hj (by rwa [self])
    (by rw [self, same]; exact empty)
  have keeps := fun k => slot_allocated h (k := k) free unused hn type'
  simp only [self] at linked keeps
  rw [← same]
  have slots := fun k => slot_setEntry (σ := allocated L σ b) (k := k) hj fits indirect
  -- a block with another reference than the indirect block is as before
  have elsewhere : ∀ r c, refs L σ (update ino n ip) r = some c → r ≠ (n, NDIRECT) →
      update (allocated L σ b) (ip.addr NDIRECT)
        ((allocated L σ b (ip.addr NDIRECT)).setWord (4 * j) 4 (BitVec.ofNat 32 b)) c = σ c := by
    intro r c ref' hr
    rw [update_of_ne, allocated_of_ref h free unused ref']
    rintro rfl
    exact hr (h.alloc.inj _ _ _ ref' ref)
  have grows : Grows σ ip (update (allocated L σ b) (ip.addr NDIRECT)
      ((allocated L σ b (ip.addr NDIRECT)).setWord (4 * j) 4 (BitVec.ofNat 32 b))) ip := by
    refine ⟨rfl, rfl, rfl, fun k hk => ?_⟩
    rw [slots, keeps, if_neg]
    rintro rfl
    exact hk (by rw [slot_entry indirect, empty]; rfl)
  refine does_bset mem_cons_self (does_logWrite mem_cons_self data.home
    (does_brelse (does_ret ⟨rfl, ⟨linked, grows, fun i k c hin ref' => ?_, fun p hp => ?_⟩,
      fun _ => ?_, iff_of_false free.ne_zero fun both => unused (both.2 b free.2),
      fun zero => absurd zero free.ne_zero⟩)))
  · exact elsewhere _ c ((refs_other hin).trans ref') fun same => hin (Prod.ext_iff.mp same).1
  · refine grows.byte hp (elsewhere _ _ (hp.refs hn type self) fun same => ?_)
    exact dataSlot_ne _ (Prod.ext_iff.mp same).2
  · rw [slots, if_pos rfl]

/-- The number of blocks that `bmap` allocates for block `bn` of a file. -/
def blocksNeeded (σ : Store) (ip : Inode) (bn : ℕ) : ℕ :=
  if slot σ ip (dataSlot bn) ≠ 0 then 0
  else if bn < NDIRECT ∨ ip.addr NDIRECT ≠ 0 then 1 else 2

/-- What `bmap` leaves for block `bn` of the file: `b` is the block, or 0 if there are too few free
blocks. -/
structure MapsBlock (L : Layout) (σ : Store) (ip : Inode) (bn b : ℕ) (σ' : Store) (ip' : Inode) :
    Prop where
  addr : b ≠ 0 → b = slot σ' ip' (dataSlot bn)
  fails : b = 0 ↔ freeCount L σ < blocksNeeded σ ip bn
  full : b = 0 → DiskFull L σ'

theorem does_bmap (h : FsInv F L σ (update ino n ip) [] n)
    (hn : n < L.ninodes) (type : ip.type ≠ 0) {bn : ℕ} (hbn : bn < MAXFILE) :
    Does L (bmap L ip bn) σ [] fun r σ' K' => K' = [] ∧ Gains F L σ ino n ip σ' r.2 ∧
      MapsBlock L σ ip bn r.1 σ' r.2 := by
  have needed : ∀ {m : ℕ}, slot σ ip (dataSlot bn) = 0 → (bn < NDIRECT ∨ ip.addr NDIRECT ≠ 0) →
      (m < blocksNeeded σ ip bn ↔ m = 0) := by
    intro m zero one
    rw [blocksNeeded, if_neg (not_not.mpr zero), if_pos one, Nat.lt_one_iff]
  have mapped : ∀ {m : ℕ}, slot σ ip (dataSlot bn) ≠ 0 → ¬ m < blocksNeeded σ ip bn := by
    intro m nonzero
    rw [blocksNeeded, if_pos nonzero]
    exact Nat.not_lt_zero m
  unfold bmap
  split_ifs with direct indirect
  · have place : ∀ σ ip, slot σ ip (dataSlot bn) = ip.addr bn := by
      intro σ ip
      rw [dataSlot, if_pos direct, slot_addr (le_of_lt direct)]
    refine (does_bmapAddr h hn type (le_of_lt direct)).mono ?_
    rintro r σ' K' ⟨hK, gains, maps⟩
    refine ⟨hK, gains, fun nonzero => ?_, ?_, fun zero => ?_⟩
    · rw [place]
      exact maps.addr nonzero
    · rw [maps.fails, ← freeCount_eq_zero]
      by_cases zero : slot σ ip (dataSlot bn) = 0
      · rw [needed zero (.inl direct), ← place σ, and_iff_right zero]
      · exact iff_of_false (fun both => zero (by rw [place]; exact both.1)) (mapped zero)
    · have count := maps.count
      rw [if_neg fun both => both.1 zero, add_zero] at count
      rw [← freeCount_eq_zero, ← count, freeCount_eq_zero]
      exact (maps.fails.mp zero).2
  · obtain ⟨j, rfl⟩ := Nat.exists_eq_add_of_le (Nat.le_of_not_lt direct)
    rw [Nat.add_sub_cancel_left] at indirect ⊢
    have place : dataSlot (NDIRECT + j) = NDIRECT + 1 + j := by
      rw [dataSlot, if_neg direct, add_right_comm]
    rw [place] at needed mapped
    refine bind ((does_bmapAddr h hn type (le_refl _)).mono ?_)
    rintro ⟨b, ip'⟩ σ' K' ⟨rfl, gains, maps⟩
    dsimp only at gains maps ⊢
    have count := maps.count
    split_ifs with failed
    · obtain ⟨none, full⟩ := maps.fails.mp failed
      rw [if_neg fun both => both.1 failed, add_zero] at count
      have none' : slot σ ip (NDIRECT + 1 + j) = 0 := slot_entry_zero (by omega) none
      refine does_ret ⟨rfl, gains, fun nonzero => absurd rfl nonzero, iff_of_true rfl ?_, fun _ => ?_⟩
      · rw [freeCount_eq_zero.mpr full, blocksNeeded, place, if_neg (not_not.mpr none')]
        split_ifs <;> decide
      · rwa [← freeCount_eq_zero, ← count, freeCount_eq_zero]
    obtain rfl := maps.addr failed
    refine bind ((does_bmapEntry gains.inv hn (gains.grows.type ▸ type) failed indirect).mono ?_)
    rintro r σ'' K' ⟨rfl, gains', entry, fails, same⟩
    rw [maps.slots _ (by omega), ← freeCount_eq_zero] at fails
    refine does_ret ⟨rfl, gains.trans gains', fun nonzero => ?_, ?_, fun zero => ?_⟩
    · rw [place]
      exact entry nonzero
    · rw [fails]
      by_cases zero : slot σ ip (NDIRECT + 1 + j) = 0
      · rw [and_iff_right zero]
        by_cases none : ip.addr NDIRECT = 0
        · rw [if_pos ⟨failed, none⟩] at count
          rw [blocksNeeded, place, if_neg (not_not.mpr zero), if_neg (by simp [none])]
          omega
        · rw [if_neg fun both => none both.2] at count
          rw [needed zero (.inr none)]
          omega
      · exact iff_of_false (fun both => zero both.1) (mapped zero)
    · rw [same zero, ← freeCount_eq_zero]
      exact (fails.mp zero).2
  · refine absurd ?_ indirect
    simp only [MAXFILE, NDIRECT, NINDIRECT, BSIZE] at hbn direct ⊢
    omega

/-! ## Writing -/

def Copyable (src : ℕ → Option Byte) : Prop := ∀ i, (src i).isSome = true

theorem Copyable.copied {src : ℕ → Option Byte} (h : Copyable src) (tot m : ℕ) :
    copied src tot m = m := by
  have found : ((range m).find? fun i => (src (tot + i)).isNone) = none := by
    refine find?_eq_none.mpr fun i _ => ?_
    rw [Option.isNone_iff_eq_none, ← ne_eq, ← Option.isSome_iff_ne_none]
    exact h _
  rw [Fs.copied, found, Option.getD_none]

theorem does_eitherCopyin {b o tot m : ℕ} {src : ℕ → Option Byte} (mem : b ∈ K)
    {Q : Bool → Store → List ℕ → Prop}
    (post : ∀ ok d, (Copyable src → ok = true ∧ d = (σ b).blit o m fun i => (src (tot + i)).getD 0) →
      Q ok (update σ b d) K) :
    Does L (eitherCopyin b (σ b) o src tot m) σ K Q := by
  unfold eitherCopyin
  split_ifs with nothing
  · have same := post (m = 0) (σ b) fun source => ?_
    · rw [update_eq_self] at same
      exact does_ret same
    · rw [source.copied] at nothing
      subst nothing
      exact ⟨rfl, (Bytes.blit_zero _ _ _).symm⟩
  · refine does_bset mem (does_ret (post _ _ fun source => ?_))
    rw [source.copied]
    exact ⟨decide_eq_true rfl, rfl⟩

/-- A block of the open inode is a data block, and a write to it changes no slot and the bytes of that
block only. -/
theorem FsInv.writeFile (h : FsInv F L σ (update ino n ip) [] n)
    (hn : n < L.ninodes) (type : ip.type ≠ 0) {off b : ℕ} (hoff : Stored σ ip off)
    (addr : b = slot σ ip (dataSlot (off / BSIZE))) :
    L.Data b ∧ ∀ d, FsInv F L (update σ b d) (update ino n ip) [] n ∧
      Grows σ ip (update σ b d) ip ∧ KeepsOthers L σ ino n (update σ b d) ∧
      ∀ p, Stored σ ip p → fileByte (update σ b d) ip p =
        if p / BSIZE = off / BSIZE then d.byte (p % BSIZE) else fileByte σ ip p := by
  have self : update ino n ip n = ip := update_self ..
  have ref := hoff.refs (L := L) hn type self
  rw [← addr] at ref
  have data := h.alloc.inside _ _ ref
  have apart := h.notIndirect_of_ref ref (dataSlot_ne _)
  have own := apart n hn (by rwa [self])
  rw [self] at own
  have grows : ∀ d, Grows σ ip (update σ b d) ip :=
    fun d => ⟨rfl, rfl, rfl, fun k _ => slot_update own⟩
  refine ⟨data, fun d => ⟨h.writeData data apart, grows d, fun i k c hin ref' => ?_, fun p hp => ?_⟩⟩
  · refine update_of_ne ?_ _ _
    rintro rfl
    exact hin (Prod.ext_iff.mp (h.alloc.inj _ _ _ ((refs_other hin).trans ref') ref)).1
  · split_ifs with block
    · rw [fileByte, block, slot_update own, ← addr, update_self]
    · refine (grows d).byte hp (update_of_ne ?_ _ _)
      intro same
      have ref' := hp.refs (L := L) hn type self
      rw [same] at ref'
      exact block (dataSlot_inj (Prod.ext_iff.mp (h.alloc.inj _ _ _ ref' ref)).2)

theorem Mapped.extend {off m : ℕ} (h : Mapped σ ip off)
    (inside : off / BSIZE < MAXFILE) (nonzero : slot σ ip (dataSlot (off / BSIZE)) ≠ 0)
    (chunk : m ≤ BSIZE - off % BSIZE) : Mapped σ ip (off + m) := by
  intro bn hbn
  by_cases last : bn = off / BSIZE
  · exact last ▸ ⟨inside, nonzero⟩
  · refine h bn ?_
    simp only [BSIZE] at last hbn chunk ⊢
    omega

/-- The `m` bytes at `off` of the file come from `src`, and its other bytes are as before. -/
def Overwrites (src : ℕ → Byte) (off m : ℕ) (σ : Store) (ip : Inode) (σ' : Store) (ip' : Inode) :
    Prop :=
  ∀ p, (off ≤ p ∧ p < off + m) ∨ Stored σ ip p → Stored σ' ip' p ∧
    fileByte σ' ip' p = if off ≤ p ∧ p < off + m then src (p - off) else fileByte σ ip p

theorem Gains.overwrites {ip ip' : Inode} (h : Gains F L σ ino n ip σ' ip')
    (src : ℕ → Byte) (off : ℕ) : Overwrites src off 0 σ ip σ' ip' := by
  intro p hp
  have outside : ¬ (off ≤ p ∧ p < off + 0) := by omega
  have stored := hp.resolve_left outside
  rw [if_neg outside]
  exact ⟨h.grows.stored stored, h.bytes p stored⟩

theorem Overwrites.trans {off m m' : ℕ} (h : Overwrites src off m σ ip σ' ip')
    (h' : Overwrites (fun i => src (m + i)) (off + m) m' σ' ip' σ'' ip'') :
    Overwrites src off (m + m') σ ip σ'' ip'' := by
  intro p hp
  by_cases later : off + m ≤ p ∧ p < off + m + m'
  · obtain ⟨stored, byte⟩ := h' p (.inl later)
    rw [if_pos later] at byte
    rw [if_pos (by omega)]
    refine ⟨stored, byte.trans (congrArg src ?_)⟩
    omega
  · obtain ⟨stored, byte⟩ := h p (hp.imp_left fun inside => by omega)
    obtain ⟨stored', byte'⟩ := h' p (.inr stored)
    rw [if_neg later, byte] at byte'
    refine ⟨stored', byte'.trans ?_⟩
    by_cases first : off ≤ p ∧ p < off + m
    · rw [if_pos first, if_pos (by omega)]
    · rw [if_neg first, if_neg (by omega)]

theorem overwrites_block {off m : ℕ}
    (grows : Grows σ ip σ' ip) (hoff : Stored σ ip off) (chunk : off % BSIZE + m ≤ BSIZE)
    (bytes : ∀ p, Stored σ ip p → fileByte σ' ip p = if p / BSIZE = off / BSIZE then
      ((σ (slot σ ip (dataSlot (off / BSIZE)))).blit (off % BSIZE) m src).byte (p % BSIZE)
      else fileByte σ ip p) : Overwrites src off m σ ip σ' ip := by
  intro p hp
  have within : p % BSIZE < BSIZE := Nat.mod_lt _ (by decide)
  by_cases inside : off ≤ p ∧ p < off + m
  · have block : p / BSIZE = off / BSIZE := by
      simp only [BSIZE] at chunk ⊢
      omega
    have place : p % BSIZE = off % BSIZE + (p - off) := by
      simp only [BSIZE] at chunk ⊢
      omega
    have stored : Stored σ ip p := by
      rw [Stored, block]
      exact hoff
    refine ⟨grows.stored stored, ?_⟩
    rw [bytes p stored, if_pos block, if_pos inside, Bytes.byte_blit_in _ _ within (by omega)
      (by omega), place, Nat.add_sub_cancel_left]
  · have stored := hp.resolve_left inside
    refine ⟨grows.stored stored, ?_⟩
    rw [bytes p stored, if_neg inside]
    split_ifs with block
    · have place : p % BSIZE < off % BSIZE ∨ off % BSIZE + m ≤ p % BSIZE := by
        simp only [BSIZE] at block ⊢
        omega
      rw [Bytes.byte_blit_out _ _ place, fileByte, block]
    · rfl

/-- Of the `left` bytes at `off` the first `m` have been written, fewer only on a full disk; the
transfer then stops at the end of a block. -/
structure Transfers (L : Layout) (src : ℕ → Byte) (off left m : ℕ) (σ : Store) (ip : Inode)
    (σ' : Store) (ip' : Inode) : Prop where
  le : m ≤ left
  full : m < left → DiskFull L σ'
  stops : m < left → m = 0 ∨ (off + m) % BSIZE = 0
  starts : left ≠ 0 → (m = 0 ↔ freeCount L σ < blocksNeeded σ ip (off / BSIZE))
  bytes : Overwrites src off m σ ip σ' ip'

theorem Transfers.nothing (h : FsInv F L σ (update ino n ip) [] n)
    (src : ℕ → Byte) (off : ℕ) : Transfers L src off 0 0 σ ip σ ip :=
  ⟨le_refl _, nofun, nofun, fun some => absurd rfl some, (Gains.refl h).overwrites src off⟩

theorem does_writeiFrom (hn : n < L.ninodes) (src : ℕ → Option Byte) (k : ℕ)
    {off left tot : ℕ} (h : FsInv F L σ (update ino n ip) [] n) (type : ip.type ≠ 0)
    (mapped : Mapped σ ip off) (room : off + left ≤ MAXFILE * BSIZE) (fuel : left ≤ k) :
    Does L (writeiFrom L src k ip off left tot) σ [] fun r σ' K' => K' = [] ∧
      FsInv F L σ' (update ino n r.2.2) [] n ∧ Grows σ ip σ' r.2.2 ∧
      KeepsOthers L σ ino n σ' ∧ Mapped σ' r.2.2 r.2.1 ∧ r.2.1 ≤ MAXFILE * BSIZE ∧
      (Copyable src → ∃ m, r.1 = tot + m ∧ r.2.1 = off + m ∧
        Transfers L (fun i => (src (tot + i)).getD 0) off left m σ ip σ' r.2.2) := by
  have bound : off ≤ MAXFILE * BSIZE := le_trans (Nat.le_add_right _ _) room
  induction k generalizing σ ip off left tot with
  | zero =>
    obtain rfl := Nat.le_zero.mp fuel
    exact does_ret ⟨rfl, h, Grows.refl σ ip, KeepsOthers.refl L σ ino n, mapped, bound, fun _ =>
      ⟨0, rfl, rfl, .nothing h _ _⟩⟩
  | succ k ih =>
    unfold writeiFrom
    split_ifs with finished
    · subst finished
      exact does_ret ⟨rfl, h, Grows.refl σ ip, KeepsOthers.refl L σ ino n, mapped, bound, fun _ =>
        ⟨0, rfl, rfl, .nothing h _ _⟩⟩
    have hbn : off / BSIZE < MAXFILE := by
      simp only [MAXFILE, NDIRECT, NINDIRECT, BSIZE] at room ⊢
      omega
    refine bind ((does_bmap h hn type hbn).mono ?_)
    rintro ⟨b, ip'⟩ σ' K' ⟨rfl, gains, maps⟩
    dsimp only at gains maps ⊢
    have grows := gains.grows
    split_ifs with failed
    · exact does_ret ⟨rfl, gains.inv, grows, gains.others, grows.mapped mapped, bound, fun _ =>
        ⟨0, rfl, rfl, zero_le, fun _ => maps.full failed, fun _ => .inl rfl,
          fun _ => iff_of_true rfl (maps.fails.mp failed), gains.overwrites _ _⟩⟩
    have type' : ip'.type ≠ 0 := grows.type ▸ type
    have block := maps.addr failed
    have hoff : Stored σ' ip' off := ⟨hbn, block ▸ failed⟩
    obtain ⟨data, write⟩ := gains.inv.writeFile hn type' hoff block
    refine does_bread not_mem_nil data.home (bind (does_eitherCopyin mem_cons_self ?_))
    intro ok d source
    obtain ⟨inv', grows', others', bytes⟩ := write d
    have within : off % BSIZE < BSIZE := Nat.mod_lt _ (by decide)
    obtain ⟨m, hm⟩ : ∃ m, m = min left (BSIZE - off % BSIZE) := ⟨_, rfl⟩
    rw [← hm] at source ⊢
    split_ifs with copied
    · have mapped' := grows'.mapped ((grows.mapped mapped).extend hbn hoff.2 (m := m) (by omega))
      refine does_logWrite mem_cons_self data.home (does_brelse
        ((ih inv' type' mapped' (by omega) (by omega) (by omega)).mono ?_))
      rintro r σ'' K' ⟨hK, inv'', grows'', others'', mapped'', bound', rest⟩
      refine ⟨hK, inv'', (grows.trans grows').trans grows'',
        (gains.others.trans others').trans others'', mapped'', bound', fun ready => ?_⟩
      obtain ⟨m', total, offset, rest⟩ := rest ready
      obtain ⟨-, rfl⟩ := source ready
      subst block
      have chunk := overwrites_block grows' hoff (by omega) bytes
      have both := (gains.overwrites (fun i => (src (tot + i)).getD 0) off).trans (m := 0)
        (by simpa only [zero_add, add_zero] using chunk)
      rw [zero_add] at both
      have le := rest.le
      refine ⟨m + m', by omega, by omega, by omega, fun more => rest.full (by omega), fun more => ?_,
        fun _ => iff_of_false (by omega) fun few => failed (maps.fails.mpr few), both.trans ?_⟩
      · rcases rest.stops (by omega) with rfl | stops
        · right
          have edge : m = BSIZE - off % BSIZE := by omega
          simp only [BSIZE] at edge within ⊢
          omega
        · rw [← add_assoc]
          exact .inr stops
      · simpa only [add_assoc] using rest.bytes
    · exact does_brelse (does_ret ⟨rfl, inv', grows.trans grows', gains.others.trans others',
        grows'.mapped (grows.mapped mapped), bound, fun ready => absurd (source ready).1 copied⟩)

/-- What an operation on inode `n` leaves: a well-formed image that holds its new value `ip` and all
other inodes as before. -/
structure Wrote (L : Layout) (σ : Store) (n : ℕ) (σ' : Store) (ip : Inode) : Prop where
  wellFormed : WellFormed L σ'
  disk : inodes L σ' n = ip
  others : ∀ i < L.ninodes, i ≠ n → inodes L σ' i = inodes L σ i

theorem Wrote.refl (h : WellFormed L σ) (n : ℕ) : Wrote L σ n σ (inodes L σ n) :=
  ⟨h, rfl, fun _ _ _ => rfl⟩

theorem Wrote.trans {ip ip' : Inode} (h : Wrote L σ n σ' ip)
    (h' : Wrote L σ' n σ'' ip') : Wrote L σ n σ'' ip' :=
  ⟨h'.wellFormed, h'.disk, fun i hi hin => (h'.others i hi hin).trans (h.others i hi hin)⟩

theorem FsInv.open (h : FsInv F L σ (inodes L σ) [] n) :
    FsInv F L σ (update (inodes L σ) n (inodes L σ n)) [] n := by
  rwa [update_eq_self]

theorem inodes_closed (h : ∀ m, FsInv F L σ' (update (inodes L σ) n ip) [] m) {i : ℕ}
    (hi : i < L.ninodes) : inodes L σ' i = update (inodes L σ) n ip i :=
  (h (i + 1)).disk i hi (Nat.succ_ne_self i).symm

theorem Wrote.of_flush (hn : n < L.ninodes)
    (h : ∀ m, FsInv (fun _ => True) L σ' (update (inodes L σ) n ip) [] m) : Wrote L σ n σ' ip := by
  refine ⟨FsInv.closed h, ?_, fun i hi hin => ?_⟩
  · rw [inodes_closed h hn, update_self]
  · rw [inodes_closed h hi, update_of_ne hin]

theorem does_close (hn : n < L.ninodes) (h : FsInv F L σ' (update (inodes L σ) n ip) [] n) :
    Does L (iupdate L ip) σ' [] fun _ σ'' K' => K' = [] ∧
      (∀ m, FsInv F L σ'' (update (inodes L σ) n ip) [] m) ∧
      ∀ b, b ≠ L.iblock n → σ'' b = σ' b := by
  have flushed := does_iupdate h hn (K := []) not_mem_nil
    (Q := fun _ σ'' K' => K' = [] ∧
      (∀ m, FsInv F L σ'' (update (inodes L σ) n ip) [] m) ∧
      ∀ b, b ≠ L.iblock n → σ'' b = σ' b)
    fun σ'' inv same => ⟨rfl, inv, same⟩
  rwa [update_self] at flushed

theorem does_flush (hn : n < L.ninodes)
    (h : FsInv (fun _ => True) L σ' (update (inodes L σ) n ip) [] n) :
    Does L (iupdate L ip) σ' [] fun _ σ'' K' => K' = [] ∧ Wrote L σ n σ'' ip := by
  refine (does_close hn h).mono ?_
  rintro _ σ'' K' ⟨hK, inv, -⟩
  exact ⟨hK, Wrote.of_flush hn inv⟩

theorem does_setFields (h : WellFormed L σ) (hn : n < L.ninodes) (ip : Inode) (self : ip.inum = n)
    (type : ip.type = (inodes L σ n).type) (addr : ∀ k, ip.addr k = (inodes L σ n).addr k)
    (mapped : Mapped σ (inodes L σ n) ip.size.toNat) :
    Does L (iupdate L ip) σ [] fun _ σ' K' => K' = [] ∧ Wrote L σ n σ' ip :=
  does_flush hn ((h n).setFields ip self type addr mapped)

def OutOfRange (ip : Inode) (off len : BitVec 32) : Prop :=
  ip.size.toNat < off.toNat ∨ 2 ^ 32 ≤ off.toNat + len.toNat ∨
    MAXFILE * BSIZE < off.toNat + len.toNat

theorem add_lt_iff_wraps (off len : BitVec 32) : off + len < off ↔ 2 ^ 32 ≤ off.toNat + len.toNat := by
  have hoff := off.isLt
  have hlen := len.isLt
  rw [BitVec.lt_def, BitVec.toNat_add]
  omega

theorem toNat_add_of_not_wraps (h : ¬ 2 ^ 32 ≤ off.toNat + len.toNat) :
    (off + len).toNat = off.toNat + len.toNat := by
  rw [BitVec.toNat_add, Nat.mod_eq_of_lt (Nat.lt_of_not_le h)]

theorem writei_outOfRange (h : OutOfRange ip off len)
    (src : ℕ → Option Byte) : writei L ip src off len = pure (none, ip) := by
  unfold writei
  split_ifs with bad big
  · rfl
  · rfl
  obtain ⟨start, wraps⟩ := not_or.mp bad
  rw [add_lt_iff_wraps] at wraps
  rw [toNat_add_of_not_wraps wraps] at big
  rcases h with h | h | h
  · exact absurd h start
  · exact absurd h wraps
  · exact absurd h big

theorem writei_inRange (h : ¬ OutOfRange ip off len)
    (src : ℕ → Option Byte) : writei L ip src off len =
      writeiFrom L src len.toNat ip off.toNat len.toNat 0 >>= fun r =>
        iupdate L (r.2.2.extend r.2.1) >>= fun _ => pure (some r.1, r.2.2.extend r.2.1) := by
  obtain ⟨start, h⟩ := not_or.mp h
  obtain ⟨wraps, big⟩ := not_or.mp h
  unfold writei
  rw [if_neg, if_neg (by rwa [toNat_add_of_not_wraps wraps])]
  rw [add_lt_iff_wraps]
  exact not_or.mpr ⟨start, wraps⟩

/-- What `writei` leaves: all other files as before, and in the file the bytes of a source that can be
copied. -/
structure Writes (F : ℕ → Prop) (L : Layout) (σ : Store) (n : ℕ) (src : ℕ → Option Byte)
    (off len : BitVec 32) (r : Option ℕ × Inode) (σ' : Store) : Prop where
  inv : ∀ m, FsInv F L σ' (update (inodes L σ) n r.2) [] m
  type : r.2.type = (inodes L σ n).type
  others : KeepsOthers L σ (inodes L σ) n σ'
  fails : OutOfRange (inodes L σ n) off len → r = (none, inodes L σ n) ∧ σ' = σ
  writes : ¬ OutOfRange (inodes L σ n) off len → Copyable src → ∃ tot, r.1 = some tot ∧
    r.2.size.toNat = max (inodes L σ n).size.toNat (off.toNat + tot) ∧
    Transfers L (fun i => (src i).getD 0) off.toNat len.toNat tot σ (inodes L σ n) σ' r.2

theorem slot_congr {ip ip' : Inode} (addr : ∀ k, ip'.addr k = ip.addr k)
    (indirect : ip.addr NDIRECT ≠ 0 → σ' (ip.addr NDIRECT) = σ (ip.addr NDIRECT)) (k : ℕ) :
    slot σ' ip' k = slot σ ip k := by
  unfold slot
  simp only [addr]
  split_ifs with direct zero
  · rfl
  · rfl
  · rw [indirect zero]

theorem Overwrites.close {off m : ℕ}
    (h : Overwrites src off m σ ip σ' ip') (slots : ∀ k, slot σ'' ip'' k = slot σ' ip' k)
    (blocks : ∀ p, Stored σ' ip' p → σ'' (slot σ' ip' (dataSlot (p / BSIZE))) =
      σ' (slot σ' ip' (dataSlot (p / BSIZE)))) : Overwrites src off m σ ip σ'' ip'' := by
  intro p hp
  obtain ⟨stored, byte⟩ := h p hp
  refine ⟨⟨stored.1, by rw [slots]; exact stored.2⟩, ?_⟩
  rw [← byte, fileByte, slots, blocks p stored, fileByte]

theorem does_writei_bytes (h : ∀ m, FsInv F L σ (inodes L σ) [] m) (hn : n < L.ninodes)
    (full : F n) (type : (inodes L σ n).type ≠ 0) (src : ℕ → Option Byte) (off len : BitVec 32) :
    Does L (writei L (inodes L σ n) src off len) σ [] fun r σ' K' =>
      K' = [] ∧ Writes F L σ n src off len r σ' := by
  by_cases bad : OutOfRange (inodes L σ n) off len
  · rw [writei_outOfRange bad]
    exact does_ret ⟨rfl, fun m => by rw [update_eq_self]; exact h m, rfl,
      KeepsOthers.refl L σ _ n, fun _ => ⟨rfl, rfl⟩, fun good => absurd bad good⟩
  have range : off.toNat ≤ (inodes L σ n).size.toNat ∧
      off.toNat + len.toNat ≤ MAXFILE * BSIZE := by
    unfold OutOfRange at bad
    omega
  rw [writei_inRange bad]
  have mapped : Mapped σ (inodes L σ n) off.toNat := fun bn hbn =>
    (h n).mapped n hn full type bn (lt_of_lt_of_le hbn range.1)
  refine bind ((does_writeiFrom hn src len.toNat (h n).open type mapped range.2
    (le_refl _)).mono ?_)
  rintro ⟨tot, off', ip⟩ σ' K' ⟨rfl, inv, grows, others, mapped', bound, copied⟩
  dsimp only at inv grows others mapped' bound copied ⊢
  have fits : off' < 2 ^ 32 := lt_of_le_of_lt bound (by decide)
  have sized := size_extend ip fits
  have size : Mapped σ' ip (ip.extend off').size.toNat := by
    rw [sized]
    intro bn hbn
    rcases lt_max_iff.mp hbn with old | new
    · rw [grows.size] at old
      exact grows.mapped ((h n).mapped n hn full type) bn old
    · exact mapped' bn new
  have self : update (inodes L σ) n ip n = ip := update_self ..
  have extended := inv.setFields (ip.extend off') (by rw [inum_extend, grows.inum]; rfl)
    (by rw [self, type_extend]) (fun k => by rw [self, addr_extend]) (by rwa [self])
  rw [update_idem] at extended
  refine bind ((does_close hn extended).mono ?_)
  rintro _ σ'' K' ⟨rfl, inv', same⟩
  have data : ∀ r b, refs L σ' (update (inodes L σ) n ip) r = some b → σ'' b = σ' b :=
    fun r b ref => same b ((inv.alloc.inside r b ref).ne_iblock hn)
  have type' : ip.type ≠ 0 := grows.type ▸ type
  refine does_ret ⟨rfl, inv', by rw [type_extend, grows.type], others.trans ?_,
    fun fails => absurd fails bad, fun _ source => ?_⟩
  · intro i k b hin ref
    exact data (i, k) b (by rwa [refs_other hin])
  obtain ⟨m, total, rfl, moved⟩ := copied source
  obtain rfl : tot = m := total.trans (zero_add m)
  simp only [zero_add] at moved
  refine ⟨tot, rfl, by rw [sized, grows.size], moved.le, fun less b hb => ?_, moved.stops,
    moved.starts, ?_⟩
  · rw [Used, same _ (L.iblock_ne_bblock hn hb).symm]
    exact moved.full less b hb
  · refine moved.bytes.close (slot_congr (fun k => addr_extend ..) ?_)
      fun p hp => data _ _ (hp.refs hn type' self)
    exact fun nonzero => data _ _ (refs_open hn type' nonzero)

theorem does_writei (h : WellFormed L σ) (hn : n < L.ninodes) (type : (inodes L σ n).type ≠ 0)
    (src : ℕ → Option Byte) (off len : BitVec 32) :
    Does L (writei L (inodes L σ n) src off len) σ [] fun r σ' K' => K' = [] ∧
      Wrote L σ n σ' r.2 ∧ r.2.type = (inodes L σ n).type := by
  refine (does_writei_bytes h hn trivial type src off len).mono ?_
  rintro r σ' K' ⟨hK, writes⟩
  exact ⟨hK, Wrote.of_flush hn writes.inv, writes.type⟩

/-! ## Truncating and freeing -/

def nonzero (b : ℕ) : Option ℕ := if b = 0 then none else some b

theorem refs_eq_nonzero (hn : n < L.ninodes) (type : (ino n).type ≠ 0) {k : ℕ} (hk : k < NSLOT) :
    refs L σ ino (n, k) = nonzero (slot σ (ino n) k) := by
  unfold refs nonzero
  split_ifs with valid zero zero
  · exact absurd zero valid.2.2.2
  · rfl
  · rfl
  · exact absurd ⟨hn, type, hk, zero⟩ valid

theorem does_bfreeAddr (h : FsInv F L σ ino ((nonzero b).toList ++ spare) n) (bitmap : FreeBitmap L K) :
    Does L (bfreeAddr L b) σ K fun _ σ' K' => K' = K ∧ FsInv F L σ' ino spare n ∧
      ∀ a, L.Data a → σ' a = σ a := by
  unfold bfreeAddr
  unfold nonzero at h
  split_ifs at h ⊢ with zero
  · exact does_ret ⟨rfl, h, fun _ _ => rfl⟩
  · have data := h.alloc.spare_inside b mem_cons_self
    exact does_bfree h bitmap
      ⟨rfl, h.release, fun a ha => update_of_ne (ha.ne_bblock data.2) _ _⟩

theorem does_bfreeLoop {f : ℕ → ℕ} {N : ℕ}
    (h : FsInv F L σ ino ((range N).filterMap (fun i => nonzero (f i)) ++ spare) n)
    (bitmap : FreeBitmap L K) :
    Does L (Prog.loop (fun i => bfreeAddr L (f i)) 0 N) σ K fun _ σ' K' => K' = K ∧
      FsInv F L σ' ino spare n ∧ ∀ a, L.Data a → σ' a = σ a := by
  have loop := loop (L := L) (σ := σ) (K := K) (f := fun i => bfreeAddr L (f i))
    (J := fun i τ => FsInv F L τ ino
        ((range' i (N - i)).filterMap (fun i => nonzero (f i)) ++ spare) n ∧
      ∀ a, L.Data a → τ a = σ a) 0 N ?_ ⟨?_, fun _ _ => rfl⟩
  · refine loop.mono ?_
    rintro _ σ' K' ⟨rfl, inv, same⟩
    rw [zero_add, Nat.sub_self] at inv
    exact ⟨rfl, inv, same⟩
  · rintro i τ - hi ⟨inv, same⟩
    obtain ⟨m, hm⟩ : ∃ m, N - i = m + 1 := ⟨N - i - 1, by omega⟩
    have rest : N - (i + 1) = m := by omega
    have head : ∀ l, (i :: l).filterMap (fun i => nonzero (f i)) ++ spare =
        (nonzero (f i)).toList ++ (l.filterMap (fun i => nonzero (f i)) ++ spare) := by
      intro l
      rw [filterMap_cons]
      cases nonzero (f i) <;> rfl
    rw [hm, range'_succ, head] at inv
    refine (does_bfreeAddr inv bitmap).mono ?_
    rintro _ τ' K' ⟨rfl, inv', same'⟩
    refine ⟨rfl, ?_, fun a ha => (same' a ha).trans (same a ha)⟩
    rwa [rest]
  · rwa [Nat.sub_zero, ← range_eq_range']

theorem truncSlots_refs (hn : n < L.ninodes) (type : ip.type ≠ 0) :
    (truncSlots n).filterMap (refs L σ (update ino n ip)) =
      (range NDIRECT).filterMap (fun i => nonzero (ip.addr i)) ++
        ((range NINDIRECT).filterMap (fun j => nonzero (slot σ ip (NDIRECT + 1 + j))) ++
          (nonzero (ip.addr NDIRECT)).toList) := by
  have self : update ino n ip n = ip := update_self ..
  have at_slot : ∀ k < NSLOT, refs L σ (update ino n ip) (n, k) = nonzero (slot σ ip k) := by
    intro k hk
    rw [refs_eq_nonzero hn (by rwa [self]) hk, self]
  rw [truncSlots, filterMap_append, filterMap_append, filterMap_map, filterMap_map]
  congr 1
  · refine filterMap_congr fun i hi => ?_
    have hi := mem_range.mp hi
    exact (at_slot i (lt_trans hi (by decide))).trans
      (by rw [slot_addr (le_of_lt hi)])
  congr 1
  · exact filterMap_congr fun j hj =>
      at_slot _ (Nat.add_lt_add_left (mem_range.mp hj) _)
  · rw [filterMap_cons, at_slot NDIRECT (by decide), slot_addr (le_refl _)]
    cases nonzero (ip.addr NDIRECT) <;> rfl

theorem does_bfreeIndirect {τ : Store}
    (h : FsInv F L σ ino ((range NINDIRECT).filterMap
      (fun j => nonzero (slot τ ip (NDIRECT + 1 + j))) ++ (nonzero (ip.addr NDIRECT)).toList) n)
    (same : ip.addr NDIRECT ≠ 0 → σ (ip.addr NDIRECT) = τ (ip.addr NDIRECT)) :
    Does L (bfreeIndirect L (ip.addr NDIRECT)) σ [] fun _ σ' K' => K' = [] ∧
      FsInv F L σ' ino [] n := by
  unfold bfreeIndirect
  split_ifs with zero
  · have empty : (range NINDIRECT).filterMap
        (fun j => nonzero (slot τ ip (NDIRECT + 1 + j))) = [] := by
      refine filterMap_eq_nil_iff.mpr fun j _ => ?_
      rw [slot_entry_zero (by omega) zero]
      rfl
    rw [empty, zero] at h
    exact does_ret ⟨rfl, h⟩
  have entries : ∀ j, slot τ ip (NDIRECT + 1 + j) =
      ((σ (ip.addr NDIRECT)).word (4 * j) 4).toNat := by
    intro j
    rw [slot_entry zero, same zero]
  have single : (nonzero (ip.addr NDIRECT)).toList = [ip.addr NDIRECT] := by
    rw [nonzero, if_neg zero]
    rfl
  simp only [entries, single] at h
  have data := h.alloc.spare_inside (ip.addr NDIRECT) (by simp)
  refine does_bread not_mem_nil data.home
    (bind ((does_bfreeLoop h (freeBitmap_data data)).mono ?_))
  rintro _ σ' K' ⟨rfl, inv, -⟩
  exact does_brelse (does_bfree inv freeBitmap_nil ⟨rfl, inv.release⟩)

theorem does_itrunc (h : WellFormed L σ) (hn : n < L.ninodes) (type : (inodes L σ n).type ≠ 0) :
    Does L (itrunc L (inodes L σ n)) σ [] fun r σ' K' => K' = [] ∧
      r = (inodes L σ n).truncated ∧ Wrote L σ n σ' r := by
  unfold itrunc
  have inv := (h n).open.truncate
  rw [update_self, update_idem, truncSlots_refs hn type] at inv
  refine bind ((does_bfreeLoop inv freeBitmap_nil).mono ?_)
  rintro _ σ₁ K' ⟨rfl, inv₁, same⟩
  refine bind ((does_bfreeIndirect inv₁ ?_).mono ?_)
  · intro nonzero
    exact same _ ((h n).alloc.inside _ _ (refs_indirect hn type nonzero))
  rintro _ σ₂ K' ⟨rfl, inv₂⟩
  refine bind ((does_flush hn inv₂).mono ?_)
  rintro _ σ₃ K' ⟨rfl, wrote⟩
  exact does_ret ⟨rfl, rfl, wrote⟩

theorem does_ifree (h : WellFormed L σ) (hn : n < L.ninodes) (type : (inodes L σ n).type ≠ 0) :
    Does L (ifree L (inodes L σ n)) σ [] fun _ σ' K' => K' = [] ∧
      ∃ ip, ip.type = 0 ∧ Wrote L σ n σ' ip := by
  unfold ifree
  refine bind ((does_itrunc h hn type).mono ?_)
  rintro ip σ₁ K' ⟨rfl, rfl, wrote⟩
  have inv := (wrote.wellFormed n).setEmpty { (inodes L σ n).truncated with type := 0 } rfl
    (.inr fun k => by rw [wrote.disk, addr_truncated]) (fun k => addr_truncated (inodes L σ n) k)
    rfl
  refine (does_flush hn inv).mono ?_
  rintro _ σ₂ K' ⟨rfl, wrote'⟩
  exact ⟨rfl, _, rfl, wrote.trans wrote'⟩

/-! ## Allocating an inode -/

theorem does_iallocFrom (h : WellFormed L σ) {type : BitVec 16} {Q : Option ℕ → Store → List ℕ → Prop}
    (none : Q none σ [])
    (some : ∀ n σ', n < L.ninodes → (inodes L σ n).type = 0 → Wrote L σ n σ' (fresh n type) →
      Q (some n) σ' [])
    (k n : ℕ) : Does L (iallocFrom L type k n) σ [] Q := by
  induction k generalizing n with
  | zero => exact does_ret none
  | succ k ih =>
    unfold iallocFrom
    split_ifs with hn
    swap
    · exact does_ret none
    refine does_bread not_mem_nil (L.home_iblock hn) ?_
    split_ifs with free
    swap
    · exact does_brelse (ih (n + 1))
    have inv := (h n).setEmpty (fresh n type) rfl (.inl free)
      (addr_fresh n type) rfl
    have flushed := inv.flush hn
    rw [update_self] at flushed
    exact does_bset mem_cons_self (does_logWrite mem_cons_self (L.home_iblock hn)
      (does_brelse (does_ret (some n _ hn free (Wrote.of_flush hn flushed)))))

theorem does_ilock (hn : n < L.ninodes) (cached : Option Inode)
    (hc : ∀ ip, cached = some ip → ip = inodes L σ n ∧ ip.type ≠ 0) {Q : Inode → Store → List ℕ → Prop}
    (post : (inodes L σ n).type ≠ 0 → Q (inodes L σ n) σ []) : Does L (ilock L cached n) σ [] Q := by
  unfold ilock
  cases cached with
  | some ip =>
    obtain ⟨rfl, type⟩ := hc ip rfl
    exact does_ret (post type)
  | none =>
    refine does_bread not_mem_nil (L.home_iblock hn) (does_brelse ?_)
    split_ifs with type
    · exact does_panic (by decide)
    · exact does_ret (post type)

end

end Xv6.Fs
