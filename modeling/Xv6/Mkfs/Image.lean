import Mathlib.Algebra.Order.BigOperators.Group.Finset
import Mathlib.Data.List.GetD
import Xv6.Fs.File
import Xv6.Mkfs.Prog

/-!
# The image under construction

What the blocks of the image hold while `mkfs` appends to files: every block below `freeblock` belongs
to one slot of one inode, and everything above is zero.
-/

namespace Xv6.Mkfs

open Function Finset

open Fs (Store slot dataSlot inodes NSLOT)

/-! ## References -/

def ref (σ : Store) (ino : ℕ → Inode) (r : ℕ × ℕ) : Option ℕ :=
  if r.2 < NSLOT ∧ slot σ (ino r.1) r.2 ≠ 0 then some (slot σ (ino r.1) r.2) else none

section Ref

variable {σ σ' : Store} {ino ino' : ℕ → Inode} {i k b : ℕ}

theorem ref_eq_some : ref σ ino (i, k) = some b ↔ k < NSLOT ∧ slot σ (ino i) k = b ∧ b ≠ 0 := by
  unfold ref
  split_ifs with h
  · rw [Option.some.injEq]
    constructor
    · rintro rfl
      exact ⟨h.1, rfl, h.2⟩
    · exact fun h' => h'.2.1
  · constructor
    · exact fun h' => nomatch h'
    · rintro ⟨inside, rfl, nonzero⟩
      exact absurd ⟨inside, nonzero⟩ h

theorem ref_eq_none (hk : k < NSLOT) : ref σ ino (i, k) = none ↔ slot σ (ino i) k = 0 := by
  unfold ref
  split_ifs with h
  · exact iff_of_false nofun h.2
  · exact iff_of_true rfl (of_not_not fun nonzero => h ⟨hk, nonzero⟩)

theorem ref_congr (same : ∀ j k, k < NSLOT → slot σ' (ino' j) k = slot σ (ino j) k) :
    ref σ' ino' = ref σ ino := by
  funext ⟨j, k⟩
  unfold ref
  by_cases hk : k < NSLOT
  · rw [same j k hk]
  · rw [if_neg fun h => hk h.1, if_neg fun h => hk h.1]

theorem ref_indirect (nonzero : (ino i).addr NDIRECT ≠ 0) :
    ref σ ino (i, NDIRECT) = some ((ino i).addr NDIRECT) :=
  ref_eq_some.mpr ⟨by decide, Fs.slot_addr (le_refl _), nonzero⟩

theorem ref_setAddr (hk : k ≤ NDIRECT) (fits : b < 2 ^ 32) (hb : b ≠ 0)
    (empty : ref σ ino (i, k) = none) (zeroed : σ b = fun _ => 0) :
    ref σ (update ino i ((ino i).setAddr k b)) =
      update (ref σ ino) (i, k) (some b) := by
  have inside : k < NSLOT := lt_of_le_of_lt hk (by decide)
  rw [ref_eq_none inside, Fs.slot_addr hk] at empty
  have slots := fun j => Fs.slot_setAddr (j := j) hk fits empty fun _ => zeroed
  funext ⟨i', j⟩
  by_cases hi : i' = i
  · subst hi
    by_cases hj : j = k
    · subst hj
      rw [update_self, ref_eq_some, update_self, slots, if_pos rfl]
      exact ⟨inside, rfl, hb⟩
    · rw [update_of_ne fun same => hj (Prod.ext_iff.mp same).2]
      simp only [ref, update_self, slots, if_neg hj]
  · rw [update_of_ne fun same => hi (Prod.ext_iff.mp same).1]
    simp only [ref, update_of_ne hi]

theorem ref_setEntry {j : ℕ} (hj : j < NINDIRECT) (fits : b < 2 ^ 32) (hb : b ≠ 0)
    (indirect : (ino i).addr NDIRECT ≠ 0)
    (others : ∀ i' ≠ i, (ino i').addr NDIRECT ≠ 0 → (ino i').addr NDIRECT ≠ (ino i).addr NDIRECT) :
    ref (update σ ((ino i).addr NDIRECT)
      ((σ ((ino i).addr NDIRECT)).setWord (4 * j) 4 (BitVec.ofNat 32 b))) ino =
      update (ref σ ino) (i, NDIRECT + 1 + j) (some b) := by
  have slots := fun k => Fs.slot_setEntry (σ := σ) (k := k) hj fits indirect
  funext ⟨i', k⟩
  by_cases hi : i' = i
  · subst hi
    by_cases hk : k = NDIRECT + 1 + j
    · subst hk
      rw [update_self, ref_eq_some, slots, if_pos rfl]
      exact ⟨Nat.add_lt_add_left hj _, rfl, hb⟩
    · rw [update_of_ne fun same => hk (Prod.ext_iff.mp same).2]
      simp only [ref, slots, if_neg hk]
  · rw [update_of_ne fun same => hi (Prod.ext_iff.mp same).1]
    simp only [ref, Fs.slot_update (others i' hi)]

end Ref

/-! ## Filled blocks -/

/-- The blocks of the files `c`, whose inodes are `ino`, have been filled, and `free` is the first
block that was not used. -/
structure Filled (σ : Store) (free : ℕ) (ino : ℕ → Inode) (c : ℕ → List Byte) : Prop where
  low : nmeta ≤ free
  room : free ≤ FSSIZE
  alloc : Allocation L.Data (ref σ ino) (· < free) []
  zero : ∀ b, free ≤ b → σ b = fun _ => 0
  bytes : ∀ i bn b, bn < MAXFILE → ref σ ino (i, dataSlot bn) = some b →
    ∀ o < BSIZE, (σ b).byte o = (c i).getD (bn * BSIZE + o) 0

namespace Filled

variable {σ σ' : Store} {free : ℕ} {ino ino' : ℕ → Inode} {c c' : ℕ → List Byte}
variable {i k bn b : ℕ}

section

variable (h : Filled σ free ino c)
include h

theorem range (hb : ref σ ino (i, k) = some b) : nmeta ≤ b ∧ b < free :=
  ⟨(h.alloc.inside _ _ hb).1, h.alloc.used_of_ref hb⟩

theorem free_fits : free < 2 ^ 32 :=
  lt_of_le_of_lt h.room (by decide)

theorem free_ne_zero : free ≠ 0 := by
  have low := h.low
  simp only [nmeta, LOGSIZE, MAXOPBLOCKS] at low
  omega

theorem take (more : free < FSSIZE) : Allocation L.Data (ref σ ino) (· < free + 1) [free] :=
  h.alloc.take ⟨h.low, more⟩ (lt_irrefl free) fun b _ => by omega

theorem link (more : free < FSSIZE) (empty : ref σ ino (i, k) = none)
    (linked : ref σ' ino' = update (ref σ ino) (i, k) (some free))
    (kept : ∀ b, (∀ j, ref σ ino (j, NDIRECT) ≠ some b) → σ' b = σ b)
    (fresh : ∀ bn, dataSlot bn = k → (c i).length ≤ bn * BSIZE) : Filled σ' (free + 1) ino' c := by
  have unowned : ∀ b, free ≤ b → ∀ j, ref σ ino (j, NDIRECT) ≠ some b :=
    fun b high j own => not_lt.mpr high (h.range own).2
  refine ⟨Nat.le_succ_of_le h.low, more, ?_, fun b hb => ?_, fun j bn b hbn own o ho => ?_⟩
  · rw [linked]
    exact (h.take more).link empty
  · rw [kept b (unowned b (by omega)), h.zero b (by omega)]
  · rw [linked] at own
    by_cases here : (j, dataSlot bn) = (i, k)
    · rw [here, update_self] at own
      obtain rfl := Option.some.inj own
      obtain ⟨rfl, slot⟩ := Prod.ext_iff.mp here
      have short := fresh bn slot
      rw [kept _ (unowned _ (le_refl _)), h.zero _ (le_refl _),
        List.getD_eq_default _ _ (Nat.le_add_right_of_le short)]
      simp only [Bytes.byte, dite_eq_ite, ite_self]
    · rw [update_of_ne here] at own
      rw [kept b fun j' own' => ?_, h.bytes j bn b hbn own o ho]
      exact Fs.dataSlot_ne bn (Prod.ext_iff.mp (h.alloc.inj _ _ _ own own')).2

theorem linkAddr (more : free < FSSIZE) (hk : k ≤ NDIRECT)
    (empty : ref σ ino (i, k) = none) (fresh : ∀ bn, dataSlot bn = k → (c i).length ≤ bn * BSIZE) :
    Filled σ (free + 1) (update ino i ((ino i).setAddr k free)) c :=
  h.link more empty
    (ref_setAddr hk h.free_fits h.free_ne_zero empty (h.zero _ (le_refl _)))
    (fun _ _ => rfl) fresh

theorem indirect_ne (indirect : (ino i).addr NDIRECT ≠ 0) :
    ∀ i' ≠ i, (ino i').addr NDIRECT ≠ 0 → (ino i').addr NDIRECT ≠ (ino i).addr NDIRECT := by
  intro i' hi nonzero same
  have own : ref σ ino (i', NDIRECT) = _ := ref_indirect nonzero
  rw [same] at own
  exact hi (Prod.ext_iff.mp (h.alloc.inj _ _ _ own (ref_indirect indirect))).1

theorem linkEntry {j : ℕ} (more : free < FSSIZE) (hj : j < NINDIRECT)
    (indirect : (ino i).addr NDIRECT ≠ 0) (empty : ref σ ino (i, NDIRECT + 1 + j) = none)
    (fresh : (c i).length ≤ (NDIRECT + j) * BSIZE) :
    Filled (update σ ((ino i).addr NDIRECT)
      ((σ ((ino i).addr NDIRECT)).setWord (4 * j) 4 (BitVec.ofNat 32 free))) (free + 1) ino c := by
  refine h.link more empty (ref_setEntry hj h.free_fits h.free_ne_zero indirect
    (h.indirect_ne indirect)) (fun b hb => ?_) fun bn slot => ?_
  · refine update_of_ne (fun same => hb i ?_) ..
    rw [same]
    exact ref_indirect indirect
  · obtain rfl : bn = NDIRECT + j := by
      unfold dataSlot at slot
      split_ifs at slot
      · omega
      · omega
    exact fresh

theorem ref_write (own : ref σ ino (i, dataSlot bn) = some b)
    (d : Block) : ref (update σ b d) ino = ref σ ino := by
  refine Mkfs.ref_congr fun j k _ => Fs.slot_update fun nonzero place => ?_
  have own' := ref_indirect (σ := σ) nonzero
  rw [place] at own'
  exact Fs.dataSlot_ne bn (Prod.ext_iff.mp (h.alloc.inj _ _ _ own own')).2

theorem write (hbn : bn < MAXFILE) (own : ref σ ino (i, dataSlot bn) = some b)
    {d : Block} {p : List Byte} (here : ∀ o < BSIZE, d.byte o = p.getD (bn * BSIZE + o) 0)
    (others : ∀ bn' ≠ bn, ∀ o < BSIZE, p.getD (bn' * BSIZE + o) 0 = (c i).getD (bn' * BSIZE + o) 0) :
    Filled (update σ b d) free ino (update c i p) := by
  have same := h.ref_write own d
  refine ⟨h.low, h.room, same ▸ h.alloc, fun b' hb' => ?_, fun j bn' b' hbn' own' o ho => ?_⟩
  · have used := (h.range own).2
    rw [update_of_ne (by omega), h.zero b' hb']
  rw [same] at own'
  by_cases hb : b' = b
  · subst hb
    obtain ⟨rfl, slots⟩ := Prod.ext_iff.mp (h.alloc.inj _ _ _ own' own)
    obtain rfl : bn' = bn := by
      simp only [dataSlot] at slots
      split_ifs at slots <;> omega
    rw [update_self, update_self, here o ho]
  · rw [update_of_ne hb, h.bytes j bn' b' hbn' own' o ho]
    by_cases hj : j = i
    · subst hj
      rw [update_self, others bn' _ o ho]
      rintro rfl
      exact hb (Option.some.inj (own'.symm.trans own))
    · rw [update_of_ne hj]

theorem ref_congr (data : ∀ b, nmeta ≤ b → σ' b = σ b)
    (addr : ∀ j k, (ino' j).addr k = (ino j).addr k) : ref σ' ino' = ref σ ino := by
  refine Mkfs.ref_congr fun j k _ => ?_
  unfold slot
  rw [addr, addr]
  split_ifs with hk hi
  · rfl
  · rfl
  · rw [data _ (h.range (ref_indirect hi)).1]

theorem congr (data : ∀ b, nmeta ≤ b → σ' b = σ b)
    (addr : ∀ j k, (ino' j).addr k = (ino j).addr k) : Filled σ' free ino' c := by
  have same := h.ref_congr data addr
  refine ⟨h.low, h.room, same ▸ h.alloc, fun b hb => ?_, fun j bn b hbn own o ho => ?_⟩
  · rw [data b (le_trans h.low hb), h.zero b hb]
  · rw [same] at own
    rw [data b (h.range own).1, h.bytes j bn b hbn own o ho]

end

end Filled

/-! ## Numbers of blocks -/

def blocksOf (len : ℕ) : ℕ := (len + BSIZE - 1) / BSIZE

/-- The number of blocks that `n` blocks of a file take, with the indirect block. -/
def cost (n : ℕ) : ℕ := if NDIRECT < n then n + 1 else n

/-- The slots of an inode with `n` blocks that are in use. -/
def Needed (n k : ℕ) : Prop := if k ≤ NDIRECT then k < n else k ≤ n

/-- The number of inodes in the inode blocks. -/
def inodeRoom : ℕ := (nmeta - L.inodestart) * IPB

def total (nb : ℕ → ℕ) : ℕ := ∑ i ∈ range inodeRoom, cost (nb i)

def Fits (nb : ℕ → ℕ) : Prop := nmeta + total nb ≤ FSSIZE ∧ ∀ i < inodeRoom, nb i ≤ MAXFILE

theorem total_update (nb : ℕ → ℕ) {i : ℕ} (hi : i < inodeRoom) (n : ℕ) :
    total (update nb i n) + cost (nb i) = total nb + cost n := by
  have mem : i ∈ range inodeRoom := mem_range.mpr hi
  have rest : ∀ f : ℕ → ℕ, (∀ j ≠ i, f j = nb j) →
      ∑ j ∈ (range inodeRoom).erase i, cost (f j) =
        ∑ j ∈ (range inodeRoom).erase i, cost (nb j) :=
    fun f same => sum_congr rfl fun j hj => by rw [same j (ne_of_mem_erase hj)]
  unfold total
  rw [← add_sum_erase _ _ mem, ← add_sum_erase _ (fun j => cost (nb j)) mem,
    rest _ fun j hj => update_of_ne hj .., update_self]
  omega

theorem cost_mono {m n : ℕ} (le : m ≤ n) : cost m ≤ cost n := by
  unfold cost
  split_ifs <;> omega

theorem Fits.mono {nb nb' : ℕ → ℕ} (h : Fits nb') (le : ∀ i, nb i ≤ nb' i) : Fits nb := by
  have sum : total nb ≤ total nb' := sum_le_sum fun i _ => cost_mono (le i)
  exact ⟨by have := h.1; omega, fun i hi => le_trans (le i) (h.2 i hi)⟩

theorem needed_succ {n k : ℕ} :
    Needed (n + 1) k ↔ Needed n k ∨ k = dataSlot n ∨ n = NDIRECT ∧ k = NDIRECT := by
  unfold Needed dataSlot
  split_ifs <;> omega

theorem needed_dataSlot {n bn : ℕ} : Needed n (dataSlot bn) ↔ bn < n := by
  unfold Needed dataSlot
  split_ifs <;> omega

/-- The files `c` have been written with `nb i` blocks for inode `i`. -/
structure Draft (s : Image) (ino : ℕ → Inode) (nb : ℕ → ℕ) (c : ℕ → List Byte) : Prop where
  length : s.length = FSSIZE
  filled : Filled s.sects s.freeblock ino c
  mapped : ∀ i k, k < NSLOT → ((ref s.sects ino (i, k)).isSome ↔ Needed (nb i) k)
  small : ∀ i < inodeRoom, nb i ≤ MAXFILE
  count : s.freeblock = nmeta + total nb
  held : ∀ i, (c i).length ≤ nb i * BSIZE

end Xv6.Mkfs
