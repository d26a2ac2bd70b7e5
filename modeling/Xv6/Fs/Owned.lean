import Xv6.Fs.Store
import Xv6.Lib.Allocation

/-!
# Ownership of disk blocks

The references from inodes to blocks, the invariant of the block store that every block in use
belongs to one reference, and what each kind of write does to it.
-/

namespace Xv6.Fs

open Function List Prod Bytes

variable {L : Layout} {σ : Store} {ip : Inode} {d : Block}

/-! ## References -/

/-- The slots of an inode: the direct addresses, the indirect address and the entries of the
indirect block. -/
abbrev NSLOT : ℕ := NDIRECT + 1 + NINDIRECT

def slot (σ : Store) (ip : Inode) (k : ℕ) : ℕ :=
  if k ≤ NDIRECT then ip.addr k
  else if ip.addr NDIRECT = 0 then 0
  else ((σ (ip.addr NDIRECT)).word (4 * (k - (NDIRECT + 1))) 4).toNat

/-- Inode `i` of the image. -/
def inodes (L : Layout) (σ : Store) (i : ℕ) : Inode := Inode.decode i (σ (L.iblock i))

/-- The bitmap bit of block `b` is set. -/
def Used (L : Layout) (σ : Store) (b : ℕ) : Prop := (σ (L.bblock b)).bit (b % BPB) = true

/-- The block that slot `k` of inode `i` refers to, for the inodes `ino`. -/
def refs (L : Layout) (σ : Store) (ino : ℕ → Inode) (r : ℕ × ℕ) : Option ℕ :=
  if r.1 < L.ninodes ∧ (ino r.1).type ≠ 0 ∧ r.2 < NSLOT ∧ slot σ (ino r.1) r.2 ≠ 0 then
    some (slot σ (ino r.1) r.2)
  else none

/-- The slot of block `bn` of a file. -/
def dataSlot (bn : ℕ) : ℕ := if bn < NDIRECT then bn else bn + 1

/-- Every block below the end of a file is mapped. -/
def Mapped (σ : Store) (ip : Inode) (size : ℕ) : Prop :=
  ∀ bn, bn * BSIZE < size → bn < MAXFILE ∧ slot σ ip (dataSlot bn) ≠ 0

/-- The invariant of the store during an operation on inode `n`, which may differ from its copy on disk;
`spare` are the allocated blocks without a reference, and the inodes in `F` have no holes. -/
structure FsInv (F : ℕ → Prop) (L : Layout) (σ : Store) (ino : ℕ → Inode) (spare : List ℕ) (n : ℕ) :
    Prop where
  inum : ∀ i, (ino i).inum = i
  disk : ∀ i < L.ninodes, i ≠ n → inodes L σ i = ino i
  alloc : Allocation L.Data (refs L σ ino) (Used L σ) spare
  boot : ∀ b < L.nmeta, Used L σ b
  mapped : ∀ i < L.ninodes, F i → (ino i).type ≠ 0 → Mapped σ (ino i) (ino i).size.toNat

/-- A well-formed image: the invariant with no operation in progress. -/
def WellFormed (L : Layout) (σ : Store) : Prop := ∀ n, FsInv (fun _ => True) L σ (inodes L σ) [] n

theorem slot_addr {k : ℕ} (hk : k ≤ NDIRECT) : slot σ ip k = ip.addr k := if_pos hk

theorem slot_entry {j : ℕ} (hi : ip.addr NDIRECT ≠ 0) :
    slot σ ip (NDIRECT + 1 + j) = ((σ (ip.addr NDIRECT)).word (4 * j) 4).toNat := by
  rw [slot, if_neg (by omega), if_neg hi, Nat.add_sub_cancel_left]

theorem slot_entry_zero {k : ℕ} (hk : NDIRECT < k) (hi : ip.addr NDIRECT = 0) : slot σ ip k = 0 := by
  rw [slot, if_neg (not_le.mpr hk), if_pos hi]

theorem refs_eq_some {ino : ℕ → Inode} {i k b : ℕ} :
    refs L σ ino (i, k) = some b ↔
      i < L.ninodes ∧ (ino i).type ≠ 0 ∧ k < NSLOT ∧ slot σ (ino i) k = b ∧ b ≠ 0 := by
  unfold refs
  split_ifs with h
  · rw [Option.some.injEq]
    constructor
    · rintro rfl
      exact ⟨h.1, h.2.1, h.2.2.1, rfl, h.2.2.2⟩
    · exact fun h' => h'.2.2.2.1
  · constructor
    · exact fun h' => nomatch h'
    · rintro ⟨h₁, h₂, h₃, rfl, h₄⟩
      exact absurd ⟨h₁, h₂, h₃, h₄⟩ h

theorem refs_of_slot {ino : ℕ → Inode} {i k : ℕ} (hi : i < L.ninodes) (type : (ino i).type ≠ 0)
    (hk : k < NSLOT) (nonzero : slot σ (ino i) k ≠ 0) : refs L σ ino (i, k) = some (slot σ (ino i) k) :=
  refs_eq_some.mpr ⟨hi, type, hk, rfl, nonzero⟩

/-! ## Writes to one block -/

theorem slot_update {c k : ℕ} (apart : ip.addr NDIRECT ≠ 0 → ip.addr NDIRECT ≠ c) :
    slot (update σ c d) ip k = slot σ ip k := by
  unfold slot
  split_ifs with hk hi
  · rfl
  · rfl
  · rw [update_of_ne (apart hi)]

theorem used_update {b c : ℕ} (apart : L.bblock b ≠ c) : Used L (update σ c d) b ↔ Used L σ b := by
  rw [Used, update_of_ne apart, Used]

theorem inodes_update {i c : ℕ} (apart : L.iblock i ≠ c) :
    inodes L (update σ c d) i = inodes L σ i := by
  rw [inodes, update_of_ne apart, inodes]

theorem used_setBit {b c : ℕ} (v : Bool) :
    Used L (update σ (L.bblock b) ((σ (L.bblock b)).setBit (b % BPB) v)) c ↔
      if c = b then v = true else Used L σ c := by
  have fits : b % BPB / 8 < BSIZE := by
    have bound : b % BPB < BPB := Nat.mod_lt _ (by decide)
    simp only [BPB, BSIZE] at bound ⊢
    omega
  by_cases same : L.bblock c = L.bblock b
  · rw [Used, same, update_self]
    split_ifs with hcb
    · rw [hcb, bit_setBit_self _ _ fits]
    · rw [bit_setBit_of_ne _ _ fits, Used, same]
      simp only [Layout.bblock, BPB, BSIZE] at same ⊢
      omega
  · rw [used_update same, if_neg]
    rintro rfl
    exact same rfl

def allocated (L : Layout) (σ : Store) (b : ℕ) : Store :=
  update (update σ (L.bblock b) ((σ (L.bblock b)).setBit (b % BPB) true)) b
    fun _ => 0

def freed (L : Layout) (σ : Store) (b : ℕ) : Store :=
  update σ (L.bblock b) ((σ (L.bblock b)).setBit (b % BPB) false)

section

variable {F : ℕ → Prop} {ino : ℕ → Inode} {spare spare' : List ℕ} {n c : ℕ}

/-- A block that no inode uses as its indirect block. -/
def NotIndirect (L : Layout) (ino : ℕ → Inode) (c : ℕ) : Prop :=
  ∀ i < L.ninodes, (ino i).type ≠ 0 → (ino i).addr NDIRECT ≠ 0 → (ino i).addr NDIRECT ≠ c

theorem refs_update (apart : NotIndirect L ino c) : refs L (update σ c d) ino = refs L σ ino := by
  funext ⟨i, k⟩
  unfold refs
  by_cases h : i < L.ninodes ∧ (ino i).type ≠ 0
  · rw [slot_update (apart i h.1 h.2)]
  · rw [if_neg fun h' => h ⟨h'.1, h'.2.1⟩, if_neg fun h' => h ⟨h'.1, h'.2.1⟩]

theorem Mapped.update {size c : ℕ} (h : Mapped σ ip size)
    (apart : ip.addr NDIRECT ≠ 0 → ip.addr NDIRECT ≠ c) : Mapped (update σ c d) ip size := by
  intro bn hbn
  rw [slot_update apart]
  exact h bn hbn

theorem refs_indirect {i : ℕ} (hi : i < L.ninodes) (type : (ino i).type ≠ 0)
    (nonzero : (ino i).addr NDIRECT ≠ 0) : refs L σ ino (i, NDIRECT) = some ((ino i).addr NDIRECT) :=
  refs_eq_some.mpr ⟨hi, type, by decide, slot_addr (le_refl _), nonzero⟩

namespace FsInv

section

variable (h : FsInv F L σ ino spare n)
include h

theorem notIndirect_of_not_data (hc : ¬ L.Data c) : NotIndirect L ino c := by
  rintro i hi type nonzero rfl
  exact hc (h.alloc.inside _ _ (refs_indirect hi type nonzero))

theorem notIndirect_of_unused (hc : ¬ Used L σ c) : NotIndirect L ino c := by
  rintro i hi type nonzero rfl
  exact hc (h.alloc.used_of_ref (refs_indirect hi type nonzero))

theorem notIndirect_of_ref {i k c : ℕ}
    (ref : refs L σ ino (i, k) = some c) (hk : k ≠ NDIRECT) : NotIndirect L ino c := by
  rintro j hj type nonzero rfl
  exact hk (Prod.ext_iff.mp (h.alloc.inj _ _ _ ref (refs_indirect hj type nonzero))).2

theorem data_of_unused {b : ℕ} (hb : b < L.size) (unused : ¬ Used L σ b) : L.Data b :=
  ⟨Nat.le_of_not_lt fun low => unused (h.boot b low), hb⟩

theorem writeBlock (hc : L.Data c)
    (alloc : Allocation L.Data (refs L (update σ c d) ino) (Used L σ) spare')
    (mapped : ∀ i < L.ninodes, F i → (ino i).type ≠ 0 →
      Mapped (update σ c d) (ino i) (ino i).size.toNat) :
    FsInv F L (update σ c d) ino spare' n where
  inum := h.inum
  disk i hi hn := by rw [inodes_update (hc.ne_iblock hi).symm, h.disk i hi hn]
  alloc := alloc.congr_used fun _ hb => used_update (hc.ne_bblock hb.2).symm
  boot b hb := by
    rw [used_update (hc.ne_bblock (lt_of_lt_of_le hb L.nmeta_le)).symm]
    exact h.boot b hb
  mapped := mapped

theorem writeData (hc : L.Data c)
    (apart : NotIndirect L ino c) : FsInv F L (update σ c d) ino spare n := by
  refine h.writeBlock hc ?_ fun i hi full type =>
    (h.mapped i hi full type).update (apart i hi type)
  rw [refs_update apart]
  exact h.alloc

theorem writeBit {b : ℕ} {v : Bool} (hb : L.Data b)
    (alloc : Allocation L.Data (refs L σ ino)
      (fun c => if c = b then v = true else Used L σ c) spare') :
    FsInv F L (update σ (L.bblock b) ((σ (L.bblock b)).setBit (b % BPB) v)) ino spare' n := by
  have bitmap := L.bblock_bounds hb.2
  have apart : NotIndirect L ino (L.bblock b) :=
    h.notIndirect_of_not_data fun hc => absurd hc.1 (by omega)
  refine ⟨h.inum, fun i hi hn => ?_, ?_, fun c hc => ?_, fun i hi full type => ?_⟩
  · rw [inodes_update (L.iblock_ne_bblock hi hb.2), h.disk i hi hn]
  · rw [refs_update apart]
    exact alloc.congr_used fun _ _ => used_setBit v
  · rw [used_setBit, if_neg (ne_of_lt (lt_of_lt_of_le hc hb.1))]
    exact h.boot c hc
  · exact (h.mapped i hi full type).update (apart i hi type)

theorem allocate {b : ℕ} (hb : b < L.size) (unused : ¬ Used L σ b) :
    FsInv F L (allocated L σ b) ino (b :: spare) n := by
  have data := h.data_of_unused hb unused
  refine (h.writeBit data (h.alloc.take data unused fun c _ => ?_)).writeData data
    (h.notIndirect_of_unused unused)
  split_ifs with hcb
  · simp [hcb]
  · simp [hcb]

end

theorem release {b : ℕ} (h : FsInv F L σ ino (b :: spare) n) : FsInv F L (freed L σ b) ino spare n := by
  refine h.writeBit (h.alloc.spare_inside b mem_cons_self) (h.alloc.free fun c _ => ?_)
  split_ifs with hcb
  · simp [hcb]
  · simp [hcb]

end FsInv

/-! ## Changes of an inode -/

theorem refs_other {i k : ℕ} (hi : i ≠ n) :
    refs L σ (update ino n ip) (i, k) = refs L σ ino (i, k) := by
  simp only [refs, update_of_ne hi]

theorem slot_setAddr {k b j : ℕ} (hk : k ≤ NDIRECT) (hb : b < 2 ^ 32)
    (empty : ip.addr k = 0) (zeroed : k = NDIRECT → σ b = fun _ => 0) :
    slot σ (ip.setAddr k b) j = if j = k then b else slot σ ip j := by
  have addr := ip.addr_setAddr hk hb
  by_cases hj : j ≤ NDIRECT
  · rw [slot_addr hj, slot_addr hj, addr]
  rw [if_neg (by omega)]
  by_cases indirect : k = NDIRECT
  · subst indirect
    rw [slot_entry_zero (not_le.mp hj) empty, slot, if_neg hj, addr, if_pos rfl]
    split_ifs
    · rfl
    · rw [zeroed rfl, word_zero]
      rfl
  · rw [slot, slot, if_neg hj, if_neg hj, addr, if_neg (Ne.symm indirect)]

theorem slot_setEntry {b j k : ℕ} (hj : j < NINDIRECT) (hb : b < 2 ^ 32)
    (indirect : ip.addr NDIRECT ≠ 0) :
    slot (update σ (ip.addr NDIRECT)
      ((σ (ip.addr NDIRECT)).setWord (4 * j) 4 (BitVec.ofNat 32 b))) ip k =
      if k = NDIRECT + 1 + j then b else slot σ ip k := by
  by_cases hk : k ≤ NDIRECT
  · rw [slot_addr hk, slot_addr hk, if_neg (by omega)]
  obtain ⟨j', rfl⟩ := Nat.exists_eq_add_of_lt (not_le.mp hk)
  rw [add_right_comm, slot_entry indirect, slot_entry indirect, update_self]
  split_ifs with same
  · obtain rfl : j' = j := by omega
    simp only [NINDIRECT, BSIZE] at hj
    rw [word_setWord _ _ (by simp only [BSIZE]; omega), BitVec.toNat_ofNat, Nat.mod_eq_of_lt hb]
  · rw [word_setWord_out _ _ (by omega)]

/-- The slots of an inode in the order in which `itrunc` frees them. -/
def truncSlots (n : ℕ) : List (ℕ × ℕ) :=
  (List.range NDIRECT).map (n, ·) ++
    ((List.range NINDIRECT).map (fun j => (n, NDIRECT + 1 + j)) ++ [(n, NDIRECT)])

theorem mem_truncSlots {i k : ℕ} : (i, k) ∈ truncSlots n ↔ i = n ∧ k < NSLOT := by
  simp only [truncSlots, mem_append, mem_map, mem_range, mem_singleton, mk.injEq]
  constructor
  · rintro (⟨j, hj, rfl, rfl⟩ | ⟨j, hj, rfl, rfl⟩ | ⟨rfl, rfl⟩)
    · exact ⟨rfl, lt_trans hj (by decide)⟩
    · exact ⟨rfl, Nat.add_lt_add_left hj _⟩
    · exact ⟨rfl, by decide⟩
  · rintro ⟨rfl, hk⟩
    rcases lt_trichotomy k NDIRECT with low | rfl | high
    · exact .inl ⟨k, low, rfl, rfl⟩
    · exact .inr (.inr ⟨rfl, rfl⟩)
    · refine .inr (.inl ⟨k - (NDIRECT + 1), ?_, rfl, ?_⟩)
      · simp only [NSLOT, NDIRECT, NINDIRECT, BSIZE] at hk high ⊢
        omega
      · omega

theorem nodup_truncSlots (n : ℕ) : (truncSlots n).Nodup := by
  have direct : ((List.range NDIRECT).map (n, ·)).Nodup :=
    nodup_range.map fun _ _ same => (mk.injEq ..).mp same |>.2
  have entries : ((List.range NINDIRECT).map fun j => (n, NDIRECT + 1 + j)).Nodup :=
    nodup_range.map fun _ _ same => Nat.add_left_cancel ((mk.injEq ..).mp same).2
  refine direct.append (entries.append (nodup_singleton _) ?_) ?_
  · intro r hr single
    obtain ⟨j, -, rfl⟩ := mem_map.mp hr
    have := (mk.injEq ..).mp (mem_singleton.mp single)
    omega
  · intro r hr rest
    obtain ⟨i, hi, rfl⟩ := mem_map.mp hr
    have hi := mem_range.mp hi
    rcases mem_append.mp rest with entry | single
    · obtain ⟨j, -, same⟩ := mem_map.mp entry
      have := (mk.injEq ..).mp same
      omega
    · have := (mk.injEq ..).mp (mem_singleton.mp single)
      omega

namespace FsInv

theorem setInode (h : FsInv F L σ ino spare n) (self : ip.inum = n)
    (alloc : Allocation L.Data (refs L σ (update ino n ip)) (Used L σ) spare')
    (mapped : n < L.ninodes → F n → ip.type ≠ 0 → Mapped σ ip ip.size.toNat) :
    FsInv F L σ (update ino n ip) spare' n := by
  refine ⟨fun i => ?_, fun i hi hn => ?_, alloc, h.boot, fun i hi => ?_⟩
  · by_cases hin : i = n
    · rw [hin, update_self, self]
    · rw [update_of_ne hin, h.inum]
  · rw [update_of_ne hn, h.disk i hi hn]
  · by_cases hin : i = n
    · subst hin
      rw [update_self]
      exact mapped hi
    · rw [update_of_ne hin]
      exact h.mapped i hi

theorem linkAddr {b k : ℕ} (h : FsInv F L σ ino (b :: spare) n) (hn : n < L.ninodes)
    (type : (ino n).type ≠ 0) (hk : k ≤ NDIRECT) (empty : (ino n).addr k = 0)
    (zeroed : k = NDIRECT → σ b = fun _ => 0) :
    FsInv F L σ (update ino n ((ino n).setAddr k b)) spare n := by
  have data := h.alloc.spare_inside b mem_cons_self
  have fits : b < 2 ^ 32 := lt_trans data.2 (lt_trans L.size_lt (by decide))
  have slots := fun j => slot_setAddr (j := j) hk fits empty zeroed
  have linked : refs L σ (update ino n ((ino n).setAddr k b)) =
      update (refs L σ ino) (n, k) (some b) := by
    funext ⟨i, j⟩
    by_cases hi : i = n
    · subst hi
      by_cases hj : j = k
      · subst hj
        rw [update_self, refs_eq_some, update_self, slots, if_pos rfl]
        exact ⟨hn, type, lt_of_le_of_lt hk (by decide), rfl, data.ne_zero⟩
      · rw [update_of_ne fun same => hj (Prod.ext_iff.mp same).2]
        simp only [refs, update_self, slots, if_neg hj]
        rfl
    · rw [refs_other hi, update_of_ne fun same => hi (Prod.ext_iff.mp same).1]
  refine h.setInode (h.inum n) ?_ fun _ full _ bn hbn => ?_
  · rw [linked]
    refine h.alloc.link (Option.eq_none_iff_forall_ne_some.mpr fun c hc => ?_)
    obtain ⟨-, -, -, atc, nonzero⟩ := refs_eq_some.mp hc
    exact nonzero (by rw [← atc, slot_addr hk, empty])
  · have before := h.mapped n hn full type bn hbn
    refine ⟨before.1, ?_⟩
    rw [slots]
    split_ifs
    · exact data.ne_zero
    · exact before.2

theorem linkEntry {b j : ℕ} (h : FsInv F L σ ino (b :: spare) n) (hn : n < L.ninodes)
    (type : (ino n).type ≠ 0) (hj : j < NINDIRECT) (indirect : (ino n).addr NDIRECT ≠ 0)
    (empty : (σ ((ino n).addr NDIRECT)).word (4 * j) 4 = 0) :
    FsInv F L (update σ ((ino n).addr NDIRECT)
      ((σ ((ino n).addr NDIRECT)).setWord (4 * j) 4 (BitVec.ofNat 32 b))) ino spare n := by
  have data := h.alloc.spare_inside b mem_cons_self
  have fits : b < 2 ^ 32 := lt_trans data.2 (lt_trans L.size_lt (by decide))
  have own := refs_indirect (L := L) (σ := σ) hn type indirect
  have slots := fun k => slot_setEntry (σ := σ) (k := k) hj fits indirect
  have others : ∀ i < L.ninodes, i ≠ n → (ino i).type ≠ 0 → (ino i).addr NDIRECT ≠ 0 →
      (ino i).addr NDIRECT ≠ (ino n).addr NDIRECT := by
    intro i hi hin type' nonzero same
    have ref := refs_indirect (L := L) (σ := σ) hi type' nonzero
    rw [same] at ref
    exact hin (Prod.ext_iff.mp (h.alloc.inj _ _ _ ref own)).1
  have linked : refs L (update σ ((ino n).addr NDIRECT)
      ((σ ((ino n).addr NDIRECT)).setWord (4 * j) 4 (BitVec.ofNat 32 b))) ino =
      update (refs L σ ino) (n, NDIRECT + 1 + j) (some b) := by
    funext ⟨i, k⟩
    by_cases hi : i = n
    · subst hi
      by_cases hk : k = NDIRECT + 1 + j
      · subst hk
        rw [update_self, refs_eq_some, slots, if_pos rfl]
        exact ⟨hn, type, Nat.add_lt_add_left hj _, rfl, data.ne_zero⟩
      · rw [update_of_ne fun same => hk (Prod.ext_iff.mp same).2]
        simp only [refs, slots, if_neg hk]
    · rw [update_of_ne fun same => hi (Prod.ext_iff.mp same).1]
      unfold refs
      by_cases valid : i < L.ninodes ∧ (ino i).type ≠ 0
      · rw [slot_update (others i valid.1 hi valid.2)]
      · rw [if_neg fun h' => valid ⟨h'.1, h'.2.1⟩, if_neg fun h' => valid ⟨h'.1, h'.2.1⟩]
  refine h.writeBlock (h.alloc.inside _ _ own) ?_ fun i hi full type' => ?_
  · rw [linked]
    refine h.alloc.link (Option.eq_none_iff_forall_ne_some.mpr fun c hc => ?_)
    obtain ⟨-, -, -, atc, nonzero⟩ := refs_eq_some.mp hc
    exact nonzero (by rw [← atc, slot_entry indirect, empty]; rfl)
  · by_cases hin : i = n
    · subst hin
      intro bn hbn
      have before := h.mapped i hi full type' bn hbn
      refine ⟨before.1, ?_⟩
      rw [slots]
      split_ifs
      · exact data.ne_zero
      · exact before.2
    · exact (h.mapped i hi full type').update (others i hi hin type')

theorem flush (h : FsInv F L σ ino spare n) (hn : n < L.ninodes) :
    ∀ m, FsInv F L (update σ (L.iblock n) ((ino n).encode (σ (L.iblock n)))) ino spare m := by
  have apart : NotIndirect L ino (L.iblock n) :=
    h.notIndirect_of_not_data fun hc => hc.ne_iblock hn rfl
  have notBitmap : ∀ b < L.size, L.bblock b ≠ L.iblock n :=
    fun b hb => (L.iblock_ne_bblock hn hb).symm
  refine fun m => ⟨h.inum, fun i hi _ => ?_, ?_, fun b hb => ?_, fun i hi full type => ?_⟩
  · have self := h.inum n
    by_cases hin : i = n
    · subst hin
      rw [inodes, update_self]
      nth_rewrite 1 [← self]
      exact (ino i).decode_encode _
    · by_cases same : L.iblock i = L.iblock n
      · rw [inodes, same, update_self, Inode.decode_encode_of_ne, ← same, ← h.disk i hi hin, inodes]
        rw [self]
        simp only [Layout.iblock, IPB, BSIZE] at same ⊢
        omega
      · rw [inodes_update same, h.disk i hi hin]
  · rw [refs_update apart]
    exact h.alloc.congr_used fun b hb => used_update (notBitmap b hb.2)
  · rw [used_update (notBitmap b (lt_of_lt_of_le hb L.nmeta_le))]
    exact h.boot b hb
  · exact (h.mapped i hi full type).update (apart i hi type)

theorem setFields (h : FsInv F L σ ino spare n) (ip : Inode) (self : ip.inum = n)
    (type : ip.type = (ino n).type) (addr : ∀ k, ip.addr k = (ino n).addr k)
    (mapped : Mapped σ (ino n) ip.size.toNat) : FsInv F L σ (update ino n ip) spare n := by
  have slots : ∀ k, slot σ ip k = slot σ (ino n) k := fun k => by simp only [slot, addr]
  have same : refs L σ (update ino n ip) = refs L σ ino := by
    funext ⟨i, k⟩
    by_cases hi : i = n
    · subst hi
      simp only [refs, update_self, slots, type]
    · exact refs_other hi
  refine h.setInode self (same ▸ h.alloc) fun _ _ _ bn hbn => ?_
  rw [slots]
  exact mapped bn hbn

theorem setEmpty (h : FsInv F L σ ino spare n) (ip : Inode) (self : ip.inum = n)
    (before : (ino n).type = 0 ∨ ∀ k, (ino n).addr k = 0) (after : ∀ k, ip.addr k = 0)
    (size : ip.size = 0) : FsInv F L σ (update ino n ip) spare n := by
  have none_of_empty : ∀ {ino' : ℕ → Inode} {k : ℕ},
      ((ino' n).type = 0 ∨ ∀ k, (ino' n).addr k = 0) → refs L σ ino' (n, k) = none := by
    intro ino' k empty
    refine if_neg fun valid => ?_
    rcases empty with free | empty
    · exact valid.2.1 free
    · exact valid.2.2.2 (by simp [slot, empty])
  have same : refs L σ (update ino n ip) = refs L σ ino := by
    funext ⟨i, k⟩
    by_cases hi : i = n
    · subst hi
      rw [none_of_empty before, none_of_empty (.inr (by rwa [update_self]))]
    · exact refs_other hi
  refine h.setInode self (same ▸ h.alloc) fun _ _ _ bn hbn => ?_
  rw [size] at hbn
  exact absurd hbn (Nat.not_lt_zero _)

theorem truncate (h : FsInv F L σ ino [] n) :
    FsInv F L σ (update ino n (ino n).truncated)
      ((truncSlots n).filterMap (refs L σ ino)) n := by
  have emptied : ∀ k, refs L σ (update ino n (ino n).truncated) (n, k) = none := by
    refine fun k => if_neg fun valid => valid.2.2.2 ?_
    simp [slot]
  refine h.setInode (h.inum n) (h.alloc.release (nodup_truncSlots n) ?_ ?_)
    fun _ _ _ bn hbn => absurd hbn (Nat.not_lt_zero _)
  · rintro ⟨i, k⟩ mem
    rw [(mem_truncSlots.mp mem).1]
    exact emptied k
  · rintro ⟨i, k⟩ other
    by_cases hi : i = n
    · subst hi
      rw [emptied]
      refine (if_neg fun valid => other ?_).symm
      exact mem_truncSlots.mpr ⟨rfl, valid.2.2.1⟩
    · exact refs_other hi

theorem closed (h : ∀ m, FsInv F L σ ino [] m) : ∀ n, FsInv F L σ (inodes L σ) [] n := by
  have disk : ∀ i < L.ninodes, inodes L σ i = ino i :=
    fun i hi => (h (i + 1)).disk i hi (Nat.succ_ne_self i).symm
  have same : refs L σ (inodes L σ) = refs L σ ino := by
    funext ⟨i, k⟩
    unfold refs
    by_cases hi : i < L.ninodes
    · rw [disk i hi]
    · rw [if_neg fun valid => hi valid.1, if_neg fun valid => hi valid.1]
  refine fun n => ⟨fun _ => rfl, fun _ _ _ => rfl, same ▸ (h n).alloc, (h n).boot, fun i hi => ?_⟩
  rw [disk i hi]
  exact (h n).mapped i hi

end FsInv

end

end Xv6.Fs
