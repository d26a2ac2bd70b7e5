import Xv6.Base
import Xv6.Lib.Prog

/-!
# Physical memory

Pages, page-table entries, and the physical memory with the free list of `kalloc.c`.  Page-aligned
physical addresses are page numbers; other addresses are natural numbers below `2 ^ 64`.
-/

namespace Xv6.Vm

open Function BitVec Bytes

abbrev PGSIZE : ℕ := 4096
abbrev MAXVA : ℕ := 2 ^ (9 + 9 + 9 + 12 - 1)
abbrev TRAMPOLINE : ℕ := MAXVA - PGSIZE
abbrev TRAPFRAME : ℕ := TRAMPOLINE - PGSIZE

/-- `PGROUNDUP`, with the overflow of `uint64`. -/
def pgroundup (sz : ℕ) : ℕ := (sz + PGSIZE - 1) % 2 ^ 64 / PGSIZE * PGSIZE

def pgrounddown (a : ℕ) : ℕ := a / PGSIZE * PGSIZE

def px (level va : ℕ) : ℕ := va / 2 ^ (12 + 9 * level) % 512

/-- A page of memory. -/
abbrev Page := Bytes PGSIZE

/-! ## Page-table entries -/

/-- A page-table entry. -/
abbrev Pte := BitVec 64

/-- The flags of an entry. -/
abbrev Flags := BitVec 10

abbrev PTE_V : Flags := 1
abbrev PTE_R : Flags := 2
abbrev PTE_W : Flags := 4
abbrev PTE_X : Flags := 8
abbrev PTE_U : Flags := 16

/-- `PTE_FLAGS(pte)`. -/
def flags (pte : Pte) : Flags := pte.setWidth 10

def pte2pa (pte : Pte) : ℕ := pte.toNat / 2 ^ 10 % 2 ^ 52

def mkPte (pg : ℕ) (f : Flags) : Pte := BitVec.ofNat 64 (2 ^ 10 * pg) ||| f.setWidth 64

/-- The test `pte & b` for the flags of an entry. -/
def has (f b : Flags) : Bool := f &&& b != 0

theorem toNat_mkPte {pg : ℕ} (fits : pg < 2 ^ 52) (f : Flags) :
    (mkPte pg f).toNat = 2 ^ 10 * pg + f.toNat := by
  have small := f.isLt
  rw [mkPte, toNat_or, toNat_ofNat, toNat_setWidth,
    Nat.mod_eq_of_lt (by omega : 2 ^ 10 * pg < 2 ^ 64),
    Nat.mod_eq_of_lt (by omega : f.toNat < 2 ^ 64), Nat.two_pow_add_eq_or_of_lt small]

theorem flags_mkPte {pg : ℕ} (fits : pg < 2 ^ 52) (f : Flags) : flags (mkPte pg f) = f := by
  have small := f.isLt
  apply eq_of_toNat_eq
  rw [flags, toNat_setWidth, toNat_mkPte fits]
  omega

theorem pte2pa_mkPte {pg : ℕ} (fits : pg < 2 ^ 52) (f : Flags) : pte2pa (mkPte pg f) = pg := by
  have small := f.isLt
  rw [pte2pa, toNat_mkPte fits]
  omega

@[simp] theorem flags_zero : flags 0 = 0 := rfl

@[simp] theorem has_zero (b : Flags) : has 0 b = false := by simp [has]

theorem has_or (f g b : Flags) : has (f ||| g) b = (has f b || has g b) := by
  rw [Bool.eq_iff_iff]
  simp only [has, and_or_distrib_right, bne_iff_ne, ne_eq, Bool.or_eq_true]
  grind

theorem has_clearU (f : Flags) {b : Flags} (apart : b &&& PTE_U = 0) :
    has (f &&& ~~~PTE_U) b = has f b := by
  have : f &&& ~~~PTE_U &&& b = f &&& b := by
    refine eq_of_getLsbD_eq fun i _ => ?_
    have bit := congrArg (fun x : Flags => x.getLsbD i) apart
    simp only [getLsbD_and] at bit
    simp only [getLsbD_and, getLsbD_not]
    grind
  rw [has, has, this]

theorem flags_clearU (x : Pte) : flags (x &&& ~~~(PTE_U.setWidth 64)) = flags x &&& ~~~PTE_U := by
  refine eq_of_getLsbD_eq fun i hi => ?_
  simp only [flags, getLsbD_setWidth, getLsbD_and, getLsbD_not]
  grind

theorem pte2pa_clearU (x : Pte) : pte2pa (x &&& ~~~(PTE_U.setWidth 64)) = pte2pa x := by
  have high (y : Pte) : pte2pa y = (y.extractLsb' 10 52).toNat := by
    rw [pte2pa, extractLsb'_toNat, Nat.shiftRight_eq_div_pow]
  rw [high, high]
  refine congrArg BitVec.toNat (BitVec.eq_of_getLsbD_eq fun i hi => ?_)
  have above : (PTE_U.setWidth 64).getLsbD (10 + i) = false := by
    rw [getLsbD_setWidth, getLsbD_of_ge _ _ (by omega), Bool.and_false]
  simp only [getLsbD_extractLsb', getLsbD_and, getLsbD_not, above, Bool.not_false, Bool.and_true]
  grind

/-! ## Page-table pages -/

/-- Entry `i` of a page of the table. -/
def pte (x : Page) (i : ℕ) : Pte := x.word (8 * i) 8

def setPte (x : Page) (i : ℕ) (v : Pte) : Page := x.setWord (8 * i) 8 v

def ofPtes (f : ℕ → Pte) : Page := fun j => (f (j / 8)).extractLsb' (8 * (j % 8)) 8

def fill (c : Byte) : Page := fun _ => c

theorem pte_ofPtes (f : ℕ → Pte) {i : ℕ} (hi : i < 512) : pte (ofPtes f) i = f i := by
  refine word_eq_of_byte fun j hj => ?_
  have place : (8 * i + j) / 8 = i := by omega
  have within : (8 * i + j) % 8 = j := by omega
  rw [byte, dif_pos (by simp only [PGSIZE]; omega)]
  simp only [ofPtes, place, within]

theorem setPte_ofPtes (f : ℕ → Pte) {i : ℕ} (hi : i < 512) (v : Pte) :
    setPte (ofPtes f) i v = ofPtes (update f i v) := by
  refine ext_byte fun j hj => ?_
  simp only [PGSIZE] at hj
  rw [setPte, setWord]
  by_cases inside : j / 8 = i
  · subst inside
    rw [byte_blit_in _ _ hj (by omega) (by omega), byte, dif_pos hj]
    simp only [ofPtes, update_self]
    rw [show j - 8 * (j / 8) = j % 8 by omega]
  · rw [byte_blit_out _ _ (by omega), byte, byte, dif_pos hj, dif_pos hj]
    simp only [ofPtes, update_of_ne inside]

theorem fill_zero : fill 0 = ofPtes fun _ => 0 := by
  funext j
  simp [fill, ofPtes]

theorem ofPtes_congr {f g : ℕ → Pte} (same : ∀ i < 512, f i = g i) : ofPtes f = ofPtes g := by
  funext j
  have := j.isLt
  simp only [PGSIZE] at this
  simp only [ofPtes, same (j / 8) (by omega)]

/-! ## Memory -/

/-- The pages that `kalloc` manages, and the page of the trampoline code in the kernel. -/
structure Ram where
  /-- `PGROUNDUP(end)` -/
  first : ℕ
  /-- `PHYSTOP` -/
  last : ℕ
  trampoline : ℕ
  trampoline_lt : trampoline < first
  first_le : first ≤ last
  last_le : last ≤ 2 ^ 52
  few : last - first < TRAPFRAME / PGSIZE

theorem Ram.trampoline_fits (ram : Ram) : ram.trampoline < 2 ^ 52 :=
  lt_of_lt_of_le ram.trampoline_lt (le_trans ram.first_le ram.last_le)

/-- Physical memory and the free list.  `oracle` says for each call of `kalloc` whether it may
succeed. -/
structure Mem where
  page : ℕ → Page
  freelist : List ℕ
  oracle : List Bool

/-- The operations on memory. -/
inductive MemOp where
  | panic (e : Panic)
  /-- A recursion that is deeper than a page table. -/
  | deeper
  | kalloc
  | kfree (pg : ℕ)
  | load (pg i : ℕ)
  | store (pg i : ℕ) (v : Pte)
  | clear (pg : ℕ)
  | read (pg off n : ℕ)
  | write (pg off : ℕ) (bytes : List Byte)

@[reducible] def MemOp.Res : MemOp → Type
  | panic _ | deeper => Empty
  | kalloc => Option ℕ
  | load .. => Pte
  | read .. => List Byte
  | kfree _ | store .. | clear _ | write .. => Unit

abbrev MemSig : Sig := ⟨MemOp, MemOp.Res⟩

abbrev MProg := Prog MemSig

abbrev mem (o : MemOp) : MProg o.Res := Prog.op o Prog.ret

def slice (x : Page) (off n : ℕ) : List Byte := (List.range n).map fun i => x.byte (off + i)

def splice (x : Page) (off : ℕ) (bytes : List Byte) : Page :=
  x.blit off bytes.length fun i => bytes.getD i 0

namespace Mem

variable (m : Mem)

def set (pg : ℕ) (x : Page) : Mem := { m with page := update m.page pg x }

def lucky : Bool := m.oracle.headD true

/-- One operation on memory. -/
def exec (ram : Ram) : Handler MemSig Mem Panic
  | .panic e, _ => .error (.panic e)
  | .deeper, _ => .error .blocked
  | .kalloc, m =>
      match m.lucky, m.freelist with
      | true, pg :: rest =>
          .ok (some pg, { (m.set pg (fill 5)) with freelist := rest, oracle := m.oracle.tail })
      | _, _ => .ok (none, { m with oracle := m.oracle.tail })
  | .kfree pg, m =>
      if pg < ram.first ∨ ram.last ≤ pg then .error (.panic .kfree)
      else .ok ((), { (m.set pg (fill 1)) with freelist := pg :: m.freelist })
  | .load pg i, m => .ok (pte (m.page pg) i, m)
  | .store pg i v, m => .ok ((), m.set pg (setPte (m.page pg) i v))
  | .clear pg, m => .ok ((), m.set pg (fill 0))
  | .read pg off n, m => .ok (slice (m.page pg) off n, m)
  | .write pg off bytes, m => .ok ((), m.set pg (splice (m.page pg) off bytes))

end Mem

end Xv6.Vm
