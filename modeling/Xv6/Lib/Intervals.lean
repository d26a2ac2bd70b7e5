import Mathlib.Data.BitVec
import Mathlib.Order.Interval.Finset.Nat

/-!
# Lists of intervals

Intervals of numbers as pairs of their first number and the number after their last.  In a separated
list they are in order and no two of them touch, so that a new interval is joined with the neighbours
that it touches.
-/

namespace Intervals

open List

variable {l l₁ l₂ r : List (ℕ × ℕ)} {lo hi a : ℕ} {x : ℕ × ℕ}

def Covers (l : List (ℕ × ℕ)) (a : ℕ) : Prop := ∃ x ∈ l, x.1 ≤ a ∧ a < x.2

/-- The intervals are disjoint. -/
def Apart (x y : ℕ × ℕ) : Prop := x.2 ≤ y.1 ∨ y.2 ≤ x.1

/-- The intervals are not empty, they are in order, and no two of them touch. -/
structure Separated (l : List (ℕ × ℕ)) : Prop where
  proper : ∀ x ∈ l, x.1 < x.2
  apart : l.Pairwise fun x y => x.2 < y.1

/-- The interval from `lo` to `hi` is put between `l₁` and `l₂` and joined with the intervals that it
touches. -/
inductive Joined (lo hi : ℕ) : List (ℕ × ℕ) → List (ℕ × ℕ) → List (ℕ × ℕ) → Prop where
  | alone {l₁ l₂ : List (ℕ × ℕ)} (below : ∀ x ∈ l₁, x.2 < lo) (above : ∀ x ∈ l₂, hi < x.1) :
      Joined lo hi l₁ l₂ (l₁ ++ (lo, hi) :: l₂)
  | up {l₁ l₂ : List (ℕ × ℕ)} {d : ℕ} (below : ∀ x ∈ l₁, x.2 < lo) :
      Joined lo hi l₁ ((hi, d) :: l₂) (l₁ ++ (lo, d) :: l₂)
  | down {l₁ l₂ : List (ℕ × ℕ)} {c : ℕ} (above : ∀ x ∈ l₂, hi < x.1) :
      Joined lo hi (l₁ ++ [(c, lo)]) l₂ (l₁ ++ (c, hi) :: l₂)
  | both {l₁ l₂ : List (ℕ × ℕ)} {c d : ℕ} :
      Joined lo hi (l₁ ++ [(c, lo)]) ((hi, d) :: l₂) (l₁ ++ (c, d) :: l₂)

/-- The numbers from `lo` to `hi` are cut off from the interval that ends at `hi`. -/
inductive Cut (lo hi : ℕ) : List (ℕ × ℕ) → List (ℕ × ℕ) → Prop where
  | whole {l₁ l₂ : List (ℕ × ℕ)} : Cut lo hi (l₁ ++ (lo, hi) :: l₂) (l₁ ++ l₂)
  | tail {l₁ l₂ : List (ℕ × ℕ)} {c : ℕ} (inside : c < lo) :
      Cut lo hi (l₁ ++ (c, hi) :: l₂) (l₁ ++ (c, lo) :: l₂)

theorem Joined.start (joined : Joined lo hi l₁ l₂ r) (hx : x ∈ r) :
    x.1 = lo ∨ ∃ y ∈ l₁ ++ l₂, y.1 = x.1 := by
  cases joined with
  | alone below above =>
    rcases mem_append.mp hx with hx | hx
    · exact .inr ⟨x, by simp [hx], rfl⟩
    rcases mem_cons.mp hx with rfl | hx
    · exact .inl rfl
    · exact .inr ⟨x, by simp [hx], rfl⟩
  | up below =>
    rcases mem_append.mp hx with hx | hx
    · exact .inr ⟨x, by simp [hx], rfl⟩
    rcases mem_cons.mp hx with rfl | hx
    · exact .inl rfl
    · exact .inr ⟨x, by simp [hx], rfl⟩
  | @down _ _ c above =>
    rcases mem_append.mp hx with hx | hx
    · exact .inr ⟨x, by simp [hx], rfl⟩
    rcases mem_cons.mp hx with rfl | hx
    · exact .inr ⟨(c, lo), by simp, rfl⟩
    · exact .inr ⟨x, by simp [hx], rfl⟩
  | @both _ _ c d =>
    rcases mem_append.mp hx with hx | hx
    · exact .inr ⟨x, by simp [hx], rfl⟩
    rcases mem_cons.mp hx with rfl | hx
    · exact .inr ⟨(c, lo), by simp, rfl⟩
    · exact .inr ⟨x, by simp [hx], rfl⟩

theorem Cut.part (cut : Cut lo hi l r) (proper : lo < hi) (hx : x ∈ r) :
    ∃ y ∈ l, y.1 = x.1 ∧ x.2 ≤ y.2 := by
  cases cut with
  | whole =>
    rcases mem_append.mp hx with hx | hx
    · exact ⟨x, by simp [hx], rfl, le_refl _⟩
    · exact ⟨x, by simp [hx], rfl, le_refl _⟩
  | @tail _ _ c =>
    rcases mem_append.mp hx with hx | hx
    · exact ⟨x, by simp [hx], rfl, le_refl _⟩
    rcases mem_cons.mp hx with rfl | hx
    · exact ⟨(c, hi), by simp, rfl, le_of_lt proper⟩
    · exact ⟨x, by simp [hx], rfl, le_refl _⟩

/-! ## Covers -/

theorem covers_append : Covers (l₁ ++ l₂) a ↔ Covers l₁ a ∨ Covers l₂ a := by
  simp only [Covers, mem_append, or_and_right, exists_or]

theorem covers_cons : Covers (x :: l) a ↔ (x.1 ≤ a ∧ a < x.2) ∨ Covers l a := by
  simp only [Covers, mem_cons, or_and_right, exists_or, exists_eq_left]

theorem not_covers_nil : ¬ Covers [] a := fun ⟨_, absent, _⟩ => absurd absent not_mem_nil

theorem forall_apart_iff {y : ℕ × ℕ} (proper : ∀ x ∈ l, x.1 < x.2) (proper' : y.1 < y.2) :
    (∀ x ∈ l, Apart x y) ↔ ∀ a, y.1 ≤ a → a < y.2 → ¬ Covers l a := by
  constructor
  · rintro apart a lower upper ⟨x, hx, lower', upper'⟩
    have := apart x hx
    rw [Apart] at this
    omega
  · intro none' x hx
    have := proper x hx
    rw [Apart]
    by_contra meet
    exact none' (max x.1 y.1) (by omega) (by omega) ⟨x, hx, by omega, by omega⟩

instance : Std.Symm Apart := ⟨fun _ _ => Or.symm⟩

theorem Joined.covers (joined : Joined lo hi l₁ l₂ r) (proper : lo < hi)
    (inside : ∀ x ∈ l₁ ++ l₂, x.1 < x.2) : Covers r a ↔ Covers (l₁ ++ l₂) a ∨ (lo ≤ a ∧ a < hi) := by
  cases joined with
  | alone =>
    simp only [covers_append, covers_cons]
    apply iff_of_eq
    ac_rfl
  | @up _ _ d =>
    have := inside (hi, d) (by simp)
    have split : (lo ≤ a ∧ a < d) ↔ (lo ≤ a ∧ a < hi) ∨ (hi ≤ a ∧ a < d) := by omega
    simp only [covers_append, covers_cons, split]
    apply iff_of_eq
    ac_rfl
  | @down _ _ c =>
    have := inside (c, lo) (by simp)
    have split : (c ≤ a ∧ a < hi) ↔ (c ≤ a ∧ a < lo) ∨ (lo ≤ a ∧ a < hi) := by omega
    simp only [covers_append, covers_cons, not_covers_nil, split]
    apply iff_of_eq
    ac_rfl
  | @both _ _ c d =>
    have := inside (c, lo) (by simp)
    have := inside (hi, d) (by simp)
    have split : (c ≤ a ∧ a < d) ↔ (c ≤ a ∧ a < lo) ∨ (lo ≤ a ∧ a < hi) ∨ (hi ≤ a ∧ a < d) := by
      omega
    simp only [covers_append, covers_cons, not_covers_nil, split]
    apply iff_of_eq
    ac_rfl

theorem Cut.covers (cut : Cut lo hi l r) (proper : lo < hi) :
    Covers l a ↔ Covers r a ∨ (lo ≤ a ∧ a < hi) := by
  cases cut with
  | whole =>
    simp only [covers_append, covers_cons]
    apply iff_of_eq
    ac_rfl
  | @tail _ _ c inside =>
    have split : (c ≤ a ∧ a < hi) ↔ (c ≤ a ∧ a < lo) ∨ (lo ≤ a ∧ a < hi) := by omega
    simp only [covers_append, covers_cons, split]
    apply iff_of_eq
    ac_rfl

/-! ## Separated lists -/

theorem separated_append : Separated (l₁ ++ l₂) ↔
    Separated l₁ ∧ Separated l₂ ∧ ∀ x ∈ l₁, ∀ y ∈ l₂, x.2 < y.1 := by
  constructor
  · rintro ⟨proper, apart⟩
    obtain ⟨first, second, across⟩ := pairwise_append.mp apart
    exact ⟨⟨fun x hx => proper x (mem_append_left _ hx), first⟩,
      ⟨fun x hx => proper x (mem_append_right _ hx), second⟩, across⟩
  · rintro ⟨first, second, across⟩
    refine ⟨fun x hx => ?_, pairwise_append.mpr ⟨first.apart, second.apart, across⟩⟩
    rcases mem_append.mp hx with hx | hx
    · exact first.proper x hx
    · exact second.proper x hx

theorem separated_cons : Separated (x :: l) ↔ x.1 < x.2 ∧ Separated l ∧ ∀ y ∈ l, x.2 < y.1 := by
  constructor
  · rintro ⟨proper, apart⟩
    obtain ⟨across, rest⟩ := pairwise_cons.mp apart
    exact ⟨proper x mem_cons_self, ⟨fun y hy => proper y (mem_cons_of_mem x hy), rest⟩, across⟩
  · rintro ⟨first, rest, across⟩
    refine ⟨fun y hy => ?_, pairwise_cons.mpr ⟨across, rest.apart⟩⟩
    rcases mem_cons.mp hy with rfl | hy
    · exact first
    · exact rest.proper y hy

theorem Separated.put (first : Separated l₁) (second : Separated l₂) (proper : lo < hi)
    (below : ∀ x ∈ l₁, x.2 < lo) (above : ∀ x ∈ l₂, hi < x.1) : Separated (l₁ ++ (lo, hi) :: l₂) := by
  refine separated_append.mpr ⟨first, separated_cons.mpr ⟨proper, second, above⟩, fun x hx y hy => ?_⟩
  rcases mem_cons.mp hy with rfl | hy
  · exact below x hx
  · have := below x hx
    have := above y hy
    omega

theorem Joined.separated (joined : Joined lo hi l₁ l₂ r) (sep : Separated (l₁ ++ l₂))
    (proper : lo < hi) : Separated r := by
  obtain ⟨first, second, across⟩ := separated_append.mp sep
  cases joined with
  | alone below above => exact first.put second proper below above
  | up below =>
    obtain ⟨inside, rest, above⟩ := separated_cons.mp second
    exact first.put rest (by dsimp only at inside; omega) below above
  | down above =>
    obtain ⟨rest, last, below⟩ := separated_append.mp first
    have inside := last.proper _ mem_cons_self
    exact rest.put second (by dsimp only at inside; omega)
      (fun x hx => below x hx _ mem_cons_self) above
  | both =>
    obtain ⟨rest, last, below⟩ := separated_append.mp first
    obtain ⟨inside, rest', above⟩ := separated_cons.mp second
    have inside' := last.proper _ mem_cons_self
    exact rest.put rest' (by dsimp only at inside inside'; omega)
      (fun x hx => below x hx _ mem_cons_self) above

theorem Joined.above (joined : Joined lo hi l₁ l₂ r) (sep : Separated (l₁ ++ l₂)) :
    ∀ x ∈ l₂, hi ≤ x.1 := by
  have first : ∀ {d : ℕ} {l : List (ℕ × ℕ)}, Separated ((hi, d) :: l) →
      ∀ x ∈ (hi, d) :: l, hi ≤ x.1 := fun sep x hx => by
    obtain ⟨inside, -, across⟩ := separated_cons.mp sep
    rcases mem_cons.mp hx with rfl | hx
    · exact le_refl _
    · have := across x hx
      dsimp only at inside this
      omega
  have second := (separated_append.mp sep).2.1
  cases joined with
  | alone _ above => exact fun x hx => le_of_lt (above x hx)
  | up => exact first second
  | down above => exact fun x hx => le_of_lt (above x hx)
  | both => exact first second

theorem Cut.separated (cut : Cut lo hi l r) (sep : Separated l) (proper : lo < hi) : Separated r := by
  cases cut with
  | whole =>
    obtain ⟨first, second, across⟩ := separated_append.mp sep
    obtain ⟨-, rest, -⟩ := separated_cons.mp second
    exact separated_append.mpr ⟨first, rest, fun x hx y hy => across x hx y (mem_cons_of_mem _ hy)⟩
  | @tail _ _ c inside =>
    obtain ⟨first, second, across⟩ := separated_append.mp sep
    obtain ⟨-, rest, above⟩ := separated_cons.mp second
    refine first.put rest inside (fun x hx => across x hx _ mem_cons_self) fun x hx => ?_
    have := above x hx
    dsimp only at this
    omega

theorem Cut.apart (cut : Cut lo hi l r) (sep : Separated l) : ∀ x ∈ r, Apart x (lo, hi) := by
  intro x hx
  rw [Apart]
  cases cut with
  | whole =>
    obtain ⟨-, second, across⟩ := separated_append.mp sep
    obtain ⟨-, -, above⟩ := separated_cons.mp second
    rcases mem_append.mp hx with hx | hx
    · exact .inl (le_of_lt (across x hx _ mem_cons_self))
    · exact .inr (le_of_lt (above x hx))
  | @tail _ _ c inside =>
    obtain ⟨-, second, across⟩ := separated_append.mp sep
    obtain ⟨-, -, above⟩ := separated_cons.mp second
    rcases mem_append.mp hx with hx | hx
    · have := across x hx _ mem_cons_self
      dsimp only at this ⊢
      omega
    rcases mem_cons.mp hx with rfl | hx
    · exact .inl (le_refl _)
    · exact .inr (le_of_lt (above x hx))

theorem Separated.within (sep : Separated l) (some' : lo < hi)
    (covered : ∀ a, lo ≤ a → a < hi → Covers l a) : ∃ x ∈ l, x.1 ≤ lo ∧ hi ≤ x.2 := by
  obtain ⟨x, hx, lower, upper⟩ := covered lo (le_refl _) some'
  by_cases inside : hi ≤ x.2
  · exact ⟨x, hx, lower, inside⟩
  obtain ⟨y, hy, lower', upper'⟩ := covered x.2 (by omega) (by omega)
  obtain ⟨l₁, l₂, rfl⟩ := append_of_mem hx
  obtain ⟨-, second, across⟩ := separated_append.mp sep
  obtain ⟨-, -, above⟩ := separated_cons.mp second
  have order := sep.proper x hx
  rcases mem_append.mp hy with hy | hy
  · have := across y hy x mem_cons_self
    omega
  rcases mem_cons.mp hy with rfl | hy
  · omega
  · have := above y hy
    omega

theorem Joined.last (joined : Joined lo hi l [] r) (proper : ∀ x ∈ l, x.1 < x.2) :
    (∃ x ∈ r, x.1 ≤ lo ∧ x.2 = hi) ∧ ∀ x ∈ r, x ∈ l ∨ x.2 = hi := by
  generalize empty : ([] : List (ℕ × ℕ)) = l₂ at joined
  cases joined with
  | alone =>
    subst empty
    refine ⟨⟨(lo, hi), by simp, le_refl _, rfl⟩, fun x hx => ?_⟩
    rcases mem_append.mp hx with hx | hx
    · exact .inl hx
    · exact .inr (by rw [mem_singleton.mp hx])
  | @down m _ c =>
    subst empty
    refine ⟨⟨(c, hi), by simp, le_of_lt (proper (c, lo) (by simp)), rfl⟩, fun x hx => ?_⟩
    rcases mem_append.mp hx with hx | hx
    · exact .inl (by simp [hx])
    · exact .inr (by rw [mem_singleton.mp hx])
  | up => exact absurd empty (cons_ne_nil _ _).symm
  | both => exact absurd empty (cons_ne_nil _ _).symm

theorem Separated.split (sep : Separated l) (outside : ∀ x ∈ l, x.2 ≤ lo ∨ hi ≤ x.1) :
    ∃ l₁ l₂, l = l₁ ++ l₂ ∧ (∀ x ∈ l₁, x.2 ≤ lo) ∧ ∀ x ∈ l₂, hi ≤ x.1 := by
  induction l with
  | nil => exact ⟨[], [], rfl, by simp, by simp⟩
  | cons x l ih =>
    obtain ⟨inside, rest, across⟩ := separated_cons.mp sep
    rcases outside x mem_cons_self with below | above
    · obtain ⟨l₁, l₂, rfl, first, second⟩ := ih rest fun y hy => outside y (mem_cons_of_mem x hy)
      exact ⟨x :: l₁, l₂, rfl, forall_mem_cons.mpr ⟨below, first⟩, second⟩
    · refine ⟨[], x :: l, rfl, by simp, forall_mem_cons.mpr ⟨above, fun y hy => ?_⟩⟩
      have := across y hy
      omega

/-! ## Lengths -/

theorem Joined.length_le (joined : Joined lo hi l₁ l₂ r) : r.length ≤ (l₁ ++ l₂).length + 1 := by
  cases joined <;> simp only [length_append, length_cons, length_nil] <;> omega

/-- The numbers in a list of intervals, counted with their multiplicity. -/
def total (l : List (ℕ × ℕ)) : ℕ := (l.map fun x => x.2 - x.1).sum

theorem card_le_total {s : Finset ℕ} (covered : ∀ a ∈ s, Covers l a) : s.card ≤ total l := by
  induction l generalizing s with
  | nil =>
    have empty : s = ∅ := Finset.eq_empty_of_forall_notMem fun a ha => not_covers_nil (covered a ha)
    rw [empty, Finset.card_empty]
    exact Nat.zero_le _
  | cons x l ih =>
    have rest : (s \ Finset.Ico x.1 x.2).card ≤ total l := ih fun a ha => by
      obtain ⟨inside, outside⟩ := Finset.mem_sdiff.mp ha
      exact (covers_cons.mp (covered a inside)).resolve_left fun here =>
        outside (Finset.mem_Ico.mpr here)
    calc s.card ≤ (Finset.Ico x.1 x.2).card + (s \ Finset.Ico x.1 x.2).card :=
          Finset.card_le_card_sdiff_add_card.trans_eq (add_comm _ _)
      _ ≤ (x.2 - x.1) + total l := Nat.add_le_add (Nat.card_Ico x.1 x.2).le rest
      _ = total (x :: l) := rfl

theorem length_le_total (covered : ∀ a, lo ≤ a → a < hi → Covers l a) : hi - lo ≤ total l := by
  rw [← Nat.card_Ico lo hi]
  refine card_le_total fun a ha => ?_
  obtain ⟨lower, upper⟩ := Finset.mem_Ico.mp ha
  exact covered a lower upper

end Intervals
