import Xv6.Vm.Protect

/-!
# Stores in user memory

What `copyout` does, as the list of the bytes that it stores with their addresses.
-/

namespace Xv6.Io

open Vm List

def placed : (va : ℕ) → List Byte → List (ℕ × Byte)
  | _, [] => []
  | va, b :: bytes => (va, b) :: placed (va + 1) bytes

theorem placed_cons (va : ℕ) (b : Byte) (bytes : List Byte) :
    placed va (b :: bytes) = (va, b) :: placed (va + 1) bytes :=
  rfl

theorem length_placed (va : ℕ) (bytes : List Byte) : (placed va bytes).length = bytes.length := by
  induction bytes generalizing va with
  | nil => rfl
  | cons b bytes ih => exact congrArg (· + 1) (ih (va + 1))

theorem placed_append (va : ℕ) (a b : List Byte) :
    placed va (a ++ b) = placed va a ++ placed (va + a.length) b := by
  induction a generalizing va with
  | nil => rfl
  | cons x a ih =>
    rw [cons_append, placed_cons, placed_cons, ih, cons_append, length_cons, add_assoc, add_comm 1]

theorem mem_placed {va : ℕ} {bytes : List Byte} {x : ℕ × Byte} (hx : x ∈ placed va bytes) :
    va ≤ x.1 ∧ x.1 < va + bytes.length := by
  induction bytes generalizing va with
  | nil => exact absurd hx not_mem_nil
  | cons b bytes ih =>
    rw [length_cons]
    rcases mem_cons.mp hx with rfl | later
    · exact ⟨le_refl _, by dsimp only; omega⟩
    · obtain ⟨lower, upper⟩ := ih later
      exact ⟨by omega, by omega⟩

/-- The stores of `copyout` of the bytes `src` to the address `va`: it stops at the first byte that is
not mapped for user access. -/
def stores (t : Table) : (va : ℕ) → List Byte → List (ℕ × Byte)
  | _, [] => []
  | va, b :: src => if t.Accessible (va / PGSIZE) then (va, b) :: stores t (va + 1) src else []

section

variable {t : Table} {va : ℕ} {src : List Byte}

theorem stores_cons (va : ℕ) (b : Byte) (src : List Byte) : stores t va (b :: src) =
    if t.Accessible (va / PGSIZE) then (va, b) :: stores t (va + 1) src else [] :=
  rfl

theorem stores_eq {n : ℕ} (le : n ≤ src.length) (before : ∀ i < n, t.Accessible ((va + i) / PGSIZE))
    (stop : n < src.length → ¬ t.Accessible ((va + n) / PGSIZE)) :
    stores t va src = placed va (src.take n) := by
  induction n generalizing va src with
  | zero =>
    cases src with
    | nil => rfl
    | cons b src => exact if_neg (stop (Nat.succ_pos _))
  | succ n ih =>
    cases src with
    | nil => exact absurd le (Nat.not_succ_le_zero n)
    | cons b src =>
      have first : t.Accessible (va / PGSIZE) := before 0 (Nat.succ_pos n)
      rw [stores_cons, if_pos first, take_succ_cons, placed_cons]
      refine congrArg _ (ih (Nat.le_of_succ_le_succ le) (fun i hi => ?_) fun lt => ?_)
      · rw [add_assoc, add_comm 1]
        exact before (i + 1) (Nat.succ_lt_succ hi)
      · rw [add_assoc, add_comm 1]
        exact stop (Nat.succ_lt_succ lt)

theorem length_stores_le (va : ℕ) (src : List Byte) : (stores t va src).length ≤ src.length := by
  induction src generalizing va with
  | nil => exact le_refl _
  | cons b src ih =>
    rw [stores_cons]
    split_ifs
    · exact Nat.succ_le_succ (ih (va + 1))
    · exact zero_le

theorem all_stores_iff : (stores t va src).length = src.length ↔
    ∀ i < src.length, t.Accessible ((va + i) / PGSIZE) := by
  induction src generalizing va with
  | nil => exact iff_of_true rfl fun i hi => absurd hi (Nat.not_lt_zero i)
  | cons b src ih =>
    rw [stores_cons]
    by_cases mapped : t.Accessible (va / PGSIZE)
    · rw [if_pos mapped, length_cons, length_cons, Nat.add_right_cancel_iff, ih]
      constructor
      · intro all i hi
        cases i with
        | zero => exact mapped
        | succ i =>
          rw [add_comm i, ← add_assoc]
          exact all i (by omega)
      · intro all i hi
        rw [add_assoc, add_comm 1]
        exact all (i + 1) (by omega)
    · rw [if_neg mapped]
      exact iff_of_false (by simp) fun all => mapped (all 0 (by simp))

theorem stores_append (va : ℕ) (a b : List Byte) :
    stores t va (a ++ b) = if (stores t va a).length = a.length then
      stores t va a ++ stores t (va + a.length) b else stores t va a := by
  induction a generalizing va with
  | nil => exact (if_pos rfl).symm
  | cons c a ih =>
    rw [cons_append, stores_cons, stores_cons]
    by_cases mapped : t.Accessible (va / PGSIZE)
    · rw [if_pos mapped, if_pos mapped, ih, length_cons, length_cons, add_assoc, add_comm 1]
      by_cases all : (stores t (va + 1) a).length = a.length
      · rw [if_pos all, if_pos (congrArg (· + 1) all)]
        rfl
      · rw [if_neg all, if_neg fun same => all (Nat.succ.inj same)]
    · rw [if_neg mapped, if_neg mapped, if_neg (by simp)]

theorem stores_eq_placed (va : ℕ) (src : List Byte) :
    stores t va src = placed va (src.take (stores t va src).length) := by
  induction src generalizing va with
  | nil => rfl
  | cons b src ih =>
    rw [stores_cons]
    split_ifs
    · exact congrArg _ (ih (va + 1))
    · rfl

theorem end_of_stores {va : ℕ} {src : List Byte} (some : src ≠ [])
    (all : (stores t va src).length = src.length) : va + src.length ≤ MAXVA := by
  induction src generalizing va with
  | nil => exact absurd rfl some
  | cons b src ih =>
    rw [stores_cons] at all
    split_ifs at all with mapped
    by_cases last : src = []
    · subst last
      have low := mapped.1
      simp only [MAXVA, PGSIZE, length_singleton] at low ⊢
      omega
    · have := ih last (Nat.succ.inj all)
      rw [length_cons]
      omega

theorem stores_nil_iff (va : ℕ) (src : List Byte) :
    stores t va src = [] ↔ src = [] ∨ ¬ t.Accessible (va / PGSIZE) := by
  cases src with
  | nil => exact iff_of_true rfl (.inl rfl)
  | cons b src =>
    by_cases mapped : t.Accessible (va / PGSIZE)
    · simp [stores_cons, mapped]
    · simp [stores_cons, mapped]

/-- `copyout` makes these stores, and it succeeds if and only if all bytes are stored. -/
theorem copyout_stores {ram : Ram} {m : Mem} (shown : m.Shows ram t) (priv : t.Private) (va : ℕ)
    (src : List Byte) :
    ∃ r m' n, (copyout t.root va src).run (Mem.exec ram) m = (.ok r, m') ∧
      stores t va src = placed va (src.take n) ∧
      (r = true ↔ (stores t va src).length = src.length) ∧
      (∀ nd pg, t.place nd = some pg → m'.page pg = (t.put va (src.take n)).content nd) ∧
      ∀ pg, (∀ nd, t.place nd ≠ some pg) → m'.page pg = m.page pg := by
  obtain ⟨r, m', n, run, ⟨le, before, last⟩, inside, outside⟩ := copyout_run shown priv va src
  have stop : n < src.length → ¬ t.Accessible ((va + n) / PGSIZE) := by
    intro lt
    rcases last with ⟨-, all⟩ | ⟨-, -, fault⟩
    · omega
    · exact fault
  have made := stores_eq le before stop
  refine ⟨r, m', n, run, made, ?_, inside, outside⟩
  rw [made, length_placed, length_take]
  rcases last with ⟨rfl, rfl⟩ | ⟨rfl, lt, -⟩
  · exact iff_of_true rfl (Nat.min_self _)
  · refine iff_of_false Bool.false_ne_true ?_
    omega

end

/-- Whether byte `i` of a buffer at the user address `dst` is mapped for user access. -/
def reach (t : Table) (dst : BitVec 64) (i : ℕ) : Bool :=
  decide (t.Accessible ((dst + BitVec.ofNat 64 i).toNat / PGSIZE))

theorem reach_iff (t : Table) (dst : BitVec 64) (i : ℕ) (b : Byte) :
    reach t dst i = true ↔ (stores t (dst + BitVec.ofNat 64 i).toNat [b]).length = [b].length := by
  rw [reach, decide_eq_true_iff, stores_cons]
  split_ifs with mapped
  · exact iff_of_true mapped rfl
  · exact iff_of_false mapped (by simp)

/-- The buffer does not wrap around before its first byte that is not mapped. -/
theorem toNat_add_of_reach {t : Table} {dst : BitVec 64} {n : ℕ} (all : ∀ i < n, reach t dst i = true)
    {i : ℕ} (hi : i < n) : (dst + BitVec.ofNat 64 i).toNat = dst.toNat + i := by
  have low {j : ℕ} (hj : j < n) : (dst + BitVec.ofNat 64 j).toNat < MAXVA := by
    have mapped := (of_decide_eq_true (all j hj)).1
    simp only [MAXVA, PGSIZE] at mapped ⊢
    omega
  induction i with
  | zero => rw [BitVec.add_zero]; rfl
  | succ i ih =>
    have previous := ih (by omega)
    have bound := low (show i < n by omega)
    rw [BitVec.ofNat_add, ← BitVec.add_assoc, BitVec.toNat_add, previous]
    rw [previous] at bound
    simp only [MAXVA] at bound
    rw [show (BitVec.ofNat 64 1).toNat = 1 from rfl]
    omega

end Xv6.Io
