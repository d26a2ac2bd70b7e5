import Mathlib.Data.BitVec

/-!
# Ring buffers with free-running counters

A buffer of `cap` cells with a read and a write counter of `w` bits, of which only an index into the
buffer is taken modulo `cap`.  The buffer is related to the sequence of everything ever put into it and
everything ever taken out of it.
-/

/-- The cells between two counters, in their order. -/
def ringCells {α : Type} {w : ℕ} (cap : ℕ) (data : ℕ → α) (nread nwrite : BitVec w) : List α :=
  (List.range (nwrite - nread).toNat).map fun i => data ((nread + BitVec.ofNat w i).toNat % cap)

section Cells

variable {α : Type} {w cap : ℕ} {data : ℕ → α} {nread nwrite : BitVec w}

theorem length_ringCells : (ringCells cap data nread nwrite).length = (nwrite - nread).toNat := by
  rw [ringCells, List.length_map, List.length_range]

theorem ringCells_nil (same : nread = nwrite) : ringCells cap data nread nwrite = [] := by
  rw [ringCells, same, sub_self]
  rfl

theorem toNat_sub_succ (ne : nread ≠ nwrite) :
    (nwrite - nread).toNat = (nwrite - (nread + 1)).toNat + 1 := by
  have pos : 0 < (nwrite - nread).toNat := by
    refine Nat.pos_of_ne_zero fun zero => ne (sub_eq_zero.mp ?_).symm
    exact BitVec.eq_of_toNat_eq (zero.trans BitVec.toNat_zero.symm)
  have one : (1 : BitVec w).toNat = 1 :=
    Nat.mod_eq_of_lt (lt_of_le_of_lt pos (nwrite - nread).isLt)
  have le : 1 ≤ nwrite - nread := by
    rw [BitVec.le_def, one]
    exact pos
  rw [← BitVec.sub_sub, BitVec.toNat_sub_of_le le, one]
  omega

theorem add_ofNat_succ (x : BitVec w) (k : ℕ) :
    x + BitVec.ofNat w (k + 1) = x + 1 + BitVec.ofNat w k := by
  rw [BitVec.ofNat_add, BitVec.add_assoc, BitVec.add_comm (BitVec.ofNat w k)]
  rfl

theorem ringCells_cons (ne : nread ≠ nwrite) : ringCells cap data nread nwrite =
    data (nread.toNat % cap) :: ringCells cap data (nread + 1) nwrite := by
  rw [ringCells, toNat_sub_succ ne, List.range_succ_eq_map, List.map_cons, List.map_map,
    show nread + BitVec.ofNat w 0 = nread from add_zero _]
  refine congrArg _ (List.map_congr_left fun i _ => ?_)
  rw [Function.comp_apply, Nat.succ_eq_add_one, add_ofNat_succ]

end Cells

/-- The ring holds what has been put and not yet taken. -/
structure RingOk {α : Type} {w : ℕ} (cap : ℕ) (data : ℕ → α) (nread nwrite : BitVec w)
    (put taken : List α) : Prop where
  read : nread = BitVec.ofNat w taken.length
  write : nwrite = BitVec.ofNat w put.length
  fifo : taken <+: put
  bound : put.length ≤ taken.length + cap
  cells : ∀ i, taken.length ≤ i → i < put.length → put[i]? = some (data (i % cap))

namespace RingOk

open List

open BitVec

variable {α : Type} {w cap : ℕ} {data : ℕ → α} {nread nwrite : BitVec w} {put taken : List α}

theorem empty (cap : ℕ) (data : ℕ → α) : RingOk cap data (0 : BitVec w) 0 [] [] :=
  ⟨rfl, rfl, prefix_rfl, Nat.zero_le _, fun _ _ h => absurd h (Nat.not_lt_zero _)⟩

section

variable (ring : RingOk cap data nread nwrite put taken)
include ring

theorem sub_eq : nwrite - nread = BitVec.ofNat w (put.length - taken.length) := by
  obtain ⟨rest, rfl⟩ := ring.fifo
  rw [ring.read, ring.write, length_append, ofNat_add, Nat.add_sub_cancel_left,
    add_comm, add_sub_cancel]

theorem toNat_sub (small : cap < 2 ^ w) : (nwrite - nread).toNat = put.length - taken.length := by
  have := ring.bound
  rw [ring.sub_eq, toNat_ofNat, Nat.mod_eq_of_lt (by omega)]

theorem toNat_sub_le (small : cap < 2 ^ w) : (nwrite - nread).toNat ≤ cap := by
  have := ring.bound
  have := ring.toNat_sub small
  omega

theorem room (notFull : nwrite ≠ nread + BitVec.ofNat w cap) : put.length < taken.length + cap := by
  refine lt_of_le_of_ne ring.bound fun full => notFull ?_
  rw [ring.read, ring.write, full, ofNat_add]

theorem some (notEmpty : nread ≠ nwrite) : taken.length < put.length := by
  refine lt_of_le_of_ne ring.fifo.length_le fun same => notEmpty ?_
  rw [ring.read, ring.write, same]

end

theorem toNat_mod {n : ℕ} (divides : cap ∣ 2 ^ w) : (BitVec.ofNat w n).toNat % cap = n % cap := by
  rw [toNat_ofNat, Nat.mod_mod_of_dvd _ divides]

theorem cell_ne {i j : ℕ} (lt : i < j) (near : j < i + cap) : i % cap ≠ j % cap := by
  intro same
  have := Nat.sub_mod_eq_zero_of_mod_eq same.symm
  have := Nat.le_of_dvd (by omega) (Nat.dvd_of_mod_eq_zero this)
  omega

theorem store (ring : RingOk cap data nread nwrite put taken) (divides : cap ∣ 2 ^ w)
    (room : put.length < taken.length + cap) (a : α) :
    RingOk cap (Function.update data (nwrite.toNat % cap) a) nread (nwrite + 1) (put ++ [a])
      taken where
  read := ring.read
  write := by rw [ring.write, length_append, ofNat_add]; rfl
  fifo := ring.fifo.trans (prefix_append put [a])
  bound := by rw [length_append, length_singleton]; omega
  cells i lower upper := by
    rw [length_append, length_singleton] at upper
    rw [ring.write, toNat_mod divides]
    by_cases last : i = put.length
    · subst last
      simp
    · have lt : i < put.length := by omega
      rw [getElem?_append_left lt, Function.update_of_ne (cell_ne lt (by omega)),
        ring.cells i lower lt]

theorem back {a : α} (ring : RingOk cap data nread nwrite (put ++ [a]) taken) (divides : cap ∣ 2 ^ w)
    (untaken : taken.length ≤ put.length) : data ((nwrite - 1).toNat % cap) = a := by
  have cell := ring.cells put.length untaken (by rw [length_append]; exact Nat.lt_succ_self _)
  have last : nwrite - 1 = BitVec.ofNat w put.length := by
    rw [ring.write, length_append, ofNat_add]
    exact add_sub_cancel _ _
  rw [last, toNat_mod divides]
  simpa using cell.symm

theorem retract {a : α} (ring : RingOk cap data nread nwrite (put ++ [a]) taken)
    (untaken : taken.length ≤ put.length) : RingOk cap data nread (nwrite - 1) put taken where
  read := ring.read
  write := by
    rw [ring.write, length_append, ofNat_add]
    exact add_sub_cancel _ _
  fifo := prefix_of_prefix_length_le ring.fifo (prefix_append put [a]) untaken
  bound := by
    have := ring.bound
    rw [length_append] at this
    omega
  cells i lower upper := by
    have := ring.cells i lower (by rw [length_append]; omega)
    rwa [getElem?_append_left upper] at this

theorem front (ring : RingOk cap data nread nwrite put taken) (divides : cap ∣ 2 ^ w)
    (some : taken.length < put.length) : taken ++ [data (nread.toNat % cap)] <+: put := by
  obtain ⟨rest, rfl⟩ := ring.fifo
  have cell := ring.cells taken.length (le_refl _) some
  rw [ring.read, toNat_mod divides]
  cases rest with
  | nil => simp at some
  | cons b rest =>
    rw [getElem?_append_right (le_refl _)] at cell
    simp only [Nat.sub_self, getElem?_cons_zero, Option.some.injEq] at cell
    rw [← cell]
    exact ⟨rest, by simp⟩

theorem take (ring : RingOk cap data nread nwrite put taken) (divides : cap ∣ 2 ^ w)
    (some : taken.length < put.length) :
    RingOk cap data (nread + 1) nwrite put (taken ++ [data (nread.toNat % cap)]) where
  read := by rw [ring.read, length_append, ofNat_add]; rfl
  write := ring.write
  fifo := ring.front divides some
  bound := by
    have := ring.bound
    rw [length_append]
    omega
  cells i lower upper := by
    rw [length_append] at lower
    exact ring.cells i (by omega) upper

theorem cells_eq (ring : RingOk cap data nread nwrite put taken) (divides : cap ∣ 2 ^ w)
    (small : cap < 2 ^ w) {mid : ℕ} (lower : taken.length ≤ mid) (upper : mid ≤ put.length) :
    ringCells cap data nread (BitVec.ofNat w mid) = (put.take mid).drop taken.length := by
  have bound := ring.bound
  have length : (BitVec.ofNat w mid - nread).toNat = mid - taken.length := by
    obtain ⟨k, rfl⟩ := Nat.exists_eq_add_of_le lower
    rw [ring.read, ofNat_add, add_comm, add_sub_cancel, toNat_ofNat,
      Nat.mod_eq_of_lt (by omega), Nat.add_sub_cancel_left]
  rw [ringCells, length]
  refine List.ext_getElem (by simp; omega) fun i hi hi' => ?_
  rw [List.length_map, List.length_range] at hi
  have cell := ring.cells (taken.length + i) (Nat.le_add_right ..) (by omega)
  rw [List.getElem_map, List.getElem_range, List.getElem_drop, List.getElem_take, ring.read,
    ← ofNat_add, toNat_mod divides]
  exact (List.getElem_of_getElem? cell).2.symm

end RingOk
