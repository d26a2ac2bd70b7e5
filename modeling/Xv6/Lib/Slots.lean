import Mathlib.Data.Nat.Notation
import Mathlib.Logic.Function.Basic

/-!
# Tables of slots

A table of slots, each of them free or with a key and a value, as a finite map.  A write to one slot
inserts a key or erases one.
-/

namespace Slots

open Function

variable {K V : Type} {t t' : ℕ → Option (K × V)} {n n' i j : ℕ} {k k' : K} {v v' : V} {m : K → Option V}

/-- Slot `i` of the `n` slots has key `k` and value `v`. -/
def Holds (t : ℕ → Option (K × V)) (n : ℕ) (k : K) (v : V) (i : ℕ) : Prop :=
  i < n ∧ t i = some (k, v)

/-- No key is in two slots, and the table is the map `m`. -/
structure FiniteMap (t : ℕ → Option (K × V)) (n : ℕ) (m : K → Option V) : Prop where
  distinct : ∀ k v v' i j, Holds t n k v i → Holds t n k v' j → i = j
  maps : ∀ k v, m k = some v ↔ ∃ i, Holds t n k v i

/-- The table has `x` in slot `i` and is otherwise as before; the slot may be a new one. -/
structure Write (t : ℕ → Option (K × V)) (n i : ℕ) (x : Option (K × V)) (t' : ℕ → Option (K × V))
    (n' : ℕ) : Prop where
  inside : i < n'
  here : t' i = x
  count : ∀ j, j ≠ i → (j < n' ↔ j < n)
  others : ∀ j < n, j ≠ i → t' j = t j

theorem Write.holds_of_ne {x : Option (K × V)} (w : Write t n i x t' n') (hj : j ≠ i) :
    Holds t' n' k v j ↔ Holds t n k v j := by
  rw [Holds, w.count j hj]
  constructor
  · rintro ⟨inside, holds⟩
    exact ⟨inside, by rw [← w.others j inside hj, holds]⟩
  · rintro ⟨inside, holds⟩
    exact ⟨inside, by rw [w.others j inside hj, holds]⟩

theorem Write.holds_other {x : Option (K × V)} (w : Write t n i x t' n')
    (before : ∀ k' v, Holds t n k' v i → k' = k) (after : ∀ k' v, x = some (k', v) → k' = k)
    (hk : k' ≠ k) : Holds t' n' k' v j ↔ Holds t n k' v j := by
  by_cases hj : j = i
  · subst hj
    refine iff_of_false (fun holds => hk ?_) fun holds => hk (before k' v holds)
    exact after k' v (w.here.symm.trans holds.2)
  · exact w.holds_of_ne hj

theorem FiniteMap.none_iff (h : FiniteMap t n m) : m k = none ↔ ∀ v i, ¬ Holds t n k v i := by
  rw [Option.eq_none_iff_forall_ne_some]
  constructor
  · exact fun none v i holds => none v ((h.maps k v).mpr ⟨i, holds⟩)
  · rintro none v some
    obtain ⟨i, holds⟩ := (h.maps k v).mp some
    exact none v i holds

theorem FiniteMap.value (h : FiniteMap t n m) (holds : Holds t n k v i) : m k = some v :=
  (h.maps k v).mpr ⟨i, holds⟩

theorem FiniteMap.congr (h : FiniteMap t n m)
    (same : ∀ k v i, Holds t' n' k v i ↔ Holds t n k v i) : FiniteMap t' n' m where
  distinct k v v' i j hi hj := h.distinct k v v' i j ((same k v i).mp hi) ((same k v' j).mp hj)
  maps k v := (h.maps k v).trans (exists_congr fun i => (same k v i).symm)

variable [DecidableEq K] {m : K → Option V}

theorem FiniteMap.insert (h : FiniteMap t n m) (w : Write t n i (some (k, v)) t' n')
    (free : i < n → t i = none) (absent : m k = none) : FiniteMap t' n' (update m k (some v)) := by
  have empty : ∀ k' v', ¬ Holds t n k' v' i := by
    rintro k' v' ⟨inside, holds⟩
    rw [free inside] at holds
    cases holds
  have own : ∀ v' j, Holds t' n' k v' j → j = i := by
    intro v' j holds
    by_contra hj
    exact h.none_iff.mp absent v' j ((w.holds_of_ne hj).mp holds)
  have other : ∀ {k' v' j}, k' ≠ k → (Holds t' n' k' v' j ↔ Holds t n k' v' j) := by
    intro k' v' j hk
    refine w.holds_other (fun k' v' holds => absurd holds (empty k' v')) ?_ hk
    rintro k' v' ⟨⟩
    rfl
  constructor
  · intro k' v₁ v₂ j₁ j₂ h₁ h₂
    by_cases hk : k' = k
    · subst hk
      rw [own v₁ j₁ h₁, own v₂ j₂ h₂]
    · exact h.distinct k' v₁ v₂ j₁ j₂ ((other hk).mp h₁) ((other hk).mp h₂)
  · intro k' v'
    by_cases hk : k' = k
    · subst hk
      rw [update_self]
      constructor
      · rintro ⟨⟩
        exact ⟨i, w.inside, w.here⟩
      · rintro ⟨j, holds⟩
        obtain rfl := own v' j holds
        have value := w.here.symm.trans holds.2
        cases value
        rfl
    · rw [update_of_ne hk, h.maps]
      exact exists_congr fun j => (other hk).symm

theorem FiniteMap.erase (h : FiniteMap t n m) (w : Write t n i none t' n') (held : Holds t n k v i) :
    FiniteMap t' n' (update m k none) := by
  have elsewhere : ∀ {k' v' j}, Holds t' n' k' v' j → j ≠ i := by
    rintro k' v' j holds rfl
    have value := w.here.symm.trans holds.2
    cases value
  have other : ∀ {k' v' j}, k' ≠ k → (Holds t' n' k' v' j ↔ Holds t n k' v' j) := by
    intro k' v' j hk
    refine w.holds_other (fun k'' v'' holds => ?_) (fun _ _ => nofun) hk
    have both := held.2.symm.trans holds.2
    cases both
    rfl
  constructor
  · intro k' v₁ v₂ j₁ j₂ h₁ h₂
    exact h.distinct k' v₁ v₂ j₁ j₂ ((w.holds_of_ne (elsewhere h₁)).mp h₁)
      ((w.holds_of_ne (elsewhere h₂)).mp h₂)
  · intro k' v'
    by_cases hk : k' = k
    · subst hk
      rw [update_self]
      refine iff_of_false nofun ?_
      rintro ⟨j, holds⟩
      have hj := elsewhere holds
      exact hj (h.distinct k' v' v j i ((w.holds_of_ne hj).mp holds) held)
    · rw [update_of_ne hk, h.maps]
      exact exists_congr fun j => (other hk).symm

end Slots
