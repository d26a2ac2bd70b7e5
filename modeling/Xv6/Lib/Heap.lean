import Mathlib.Data.Finset.Interval
import Mathlib.Order.Interval.Finset.Nat

/-!
# Owned memory

A heap is the part of a memory that somebody owns, with its contents.  Heaps of different owners are
disjoint.  `Placed` describes a heap by a data structure whose nodes are placed in different cells.
-/

abbrev Heap (α : Type) := ℕ → Option α

namespace Heap

open Function

variable {α : Type} {h h' f g : Heap α} {a b : ℕ} {x : α}

def Apart (h f : Heap α) : Prop := ∀ a, h a = none ∨ f a = none

def join (h f : Heap α) : Heap α := fun a => (h a).or (f a)

def empty : Heap α := fun _ => none

def single (a : ℕ) (x : α) : Heap α := update empty a (some x)

theorem single_self : single a x a = some x := update_self ..

theorem Apart.symm (apart : h.Apart f) : f.Apart h := fun a => (apart a).symm

theorem Apart.left (apart : h.Apart f) (own : h a ≠ none) : f a = none :=
  (apart a).resolve_left own

theorem apart_join : h.Apart (f.join g) ↔ h.Apart f ∧ h.Apart g := by
  simp only [Apart, join, Option.or_eq_none_iff]
  grind

theorem apart_empty : h.Apart empty := fun _ => .inr rfl

theorem apart_single : h.Apart (single a x) ↔ h a = none := by
  constructor
  · intro apart
    exact (apart a).resolve_right (by simp [single])
  · intro free b
    by_cases hb : b = a
    · exact .inl (hb ▸ free)
    · exact .inr (by simp [single, empty, hb])

theorem join_of_left (own : h a = some x) : h.join f a = some x := by simp [join, own]

theorem join_of_none (free : h a = none) : h.join f a = f a := by simp [join, free]

theorem join_eq_none : h.join f a = none ↔ h a = none ∧ f a = none := Option.or_eq_none_iff

theorem join_empty : h.join empty = h := by
  funext a
  simp [join, empty]

theorem empty_join : empty.join h = h := by
  funext a
  simp [join, empty]

theorem join_assoc : (h.join f).join g = h.join (f.join g) := by
  funext a
  simp [join, Option.or_assoc]

theorem join_comm (apart : h.Apart f) : h.join f = f.join h := by
  funext a
  rcases apart a with free | free <;> simp [join, free]

theorem update_join (own : h a ≠ none) (apart : h.Apart f) (y : Option α) :
    update (h.join f) a y = join (update h a y) f := by
  funext b
  by_cases hb : b = a
  · subst hb
    simp [join, apart.left own]
  · simp [join, update_of_ne hb]

theorem Apart.update (apart : h.Apart f) (own : h a ≠ none) (y : Option α) :
    Apart (update h a y) f := by
  intro b
  by_cases hb : b = a
  · subst hb
    exact .inr (apart.left own)
  · rw [update_of_ne hb]
    exact apart b

theorem update_fresh (free : h.join f a = none) (y : α) :
    update (h.join f) a (some y) = join (update h a (some y)) f := by
  funext b
  by_cases hb : b = a
  · subst hb
    simp [join]
  · simp [join, update_of_ne hb]

theorem Apart.fresh (apart : h.Apart f) (free : h.join f a = none) (y : α) :
    Apart (Function.update h a (some y)) f := by
  intro b
  by_cases hb : b = a
  · subst hb
    exact .inr (join_eq_none.mp free).2
  · rw [Function.update_of_ne hb]
    exact apart b

theorem join_single (free : h a = none) : h.join (single a x) = update h a (some x) := by
  funext b
  by_cases hb : b = a
  · subst hb
    simp [join, single, free]
  · simp [join, single, empty, hb]

theorem join_exchange {k : Heap α} (apart : f.Apart g) :
    (h.join f).join (g.join k) = (h.join g).join (f.join k) := by
  rw [join_assoc, ← join_assoc (h := f), join_comm apart, join_assoc, ← join_assoc]

end Heap

/-- The heap holds the nodes of a data structure, each in the cell where it is placed. -/
structure Placed {ν α : Type} (place : ν → Option ℕ) (content : ν → α) (h : Heap α) : Prop where
  inj : ∀ n n' a, place n = some a → place n' = some a → n = n'
  cells : ∀ a x, h a = some x ↔ ∃ n, place n = some a ∧ content n = x

namespace Placed

open Function

variable {ν α : Type} {place place' : ν → Option ℕ} {content content' : ν → α} {h : Heap α}
  {n : ν} {a : ℕ} {x : α}

section

variable (placed : Placed place content h)
include placed

theorem get (at' : place n = some a) : h a = some (content n) :=
  (placed.cells a _).mpr ⟨n, at', rfl⟩

theorem own_iff : h a ≠ none ↔ ∃ n, place n = some a := by
  rw [Option.ne_none_iff_exists']
  constructor
  · rintro ⟨x, hx⟩
    obtain ⟨n, hn, -⟩ := (placed.cells a x).mp hx
    exact ⟨n, hn⟩
  · rintro ⟨n, hn⟩
    exact ⟨_, placed.get hn⟩

theorem change (place' : ν → Option ℕ) (content' : ν → α)
    (now : place n = some a ∨ place n = none ∧ h a = none) (later : ∀ b, place' n = some b → b = a)
    (same : ∀ n', n' ≠ n → place' n' = place n')
    (others : ∀ n', n' ≠ n → place n' ≠ none → content' n' = content n') :
    Placed place' content' (update h a ((place' n).map fun _ => content' n)) := by
  have alone (n' : ν) (e : n' ≠ n) : place n' ≠ some a := by
    intro hn'
    rcases now with at' | ⟨-, free⟩
    · exact e (placed.inj n' n a hn' at')
    · rw [placed.get hn'] at free
      cases free
  constructor
  · intro n₁ n₂ b h₁ h₂
    by_cases e₁ : n₁ = n <;> by_cases e₂ : n₂ = n
    · rw [e₁, e₂]
    · rw [same n₂ e₂, later b (e₁ ▸ h₁)] at h₂
      exact absurd h₂ (alone n₂ e₂)
    · rw [same n₁ e₁, later b (e₂ ▸ h₂)] at h₁
      exact absurd h₁ (alone n₁ e₁)
    · rw [same n₁ e₁] at h₁
      rw [same n₂ e₂] at h₂
      exact placed.inj n₁ n₂ b h₁ h₂
  · intro b y
    by_cases hb : b = a
    · subst hb
      rw [update_self, Option.map_eq_some_iff]
      constructor
      · rintro ⟨b', hb', rfl⟩
        exact ⟨n, later b' hb' ▸ hb', rfl⟩
      · rintro ⟨n', hn', rfl⟩
        by_cases e : n' = n
        · subst e
          exact ⟨b, hn', rfl⟩
        · rw [same n' e] at hn'
          exact absurd hn' (alone n' e)
    · rw [update_of_ne hb, placed.cells]
      constructor
      · rintro ⟨n', hn', rfl⟩
        have e : n' ≠ n := by
          rintro rfl
          rcases now with at' | ⟨none, -⟩
          · exact hb (Option.some.inj (hn'.symm.trans at'))
          · rw [none] at hn'
            cases hn'
        exact ⟨n', (same n' e).trans hn', others n' e (by simp [hn'])⟩
      · rintro ⟨n', hn', rfl⟩
        have e : n' ≠ n := by
          rintro rfl
          exact hb (later b hn')
        rw [same n' e] at hn'
        exact ⟨n', hn', (others n' e (by simp [hn'])).symm⟩

theorem set (at' : place n = some a) (same : place' = place)
    (mine : content' n = x) (others : ∀ n', n' ≠ n → place n' ≠ none → content' n' = content n') :
    Placed place' content' (update h a (some x)) := by
  subst same mine
  have changed := placed.change place' content' (.inl at')
    (fun b hb => Option.some.inj (hb.symm.trans at')) (fun _ _ => rfl) others
  rwa [at'] at changed

theorem relink (place' : ν → Option ℕ) (content' : ν → α) {r : ν}
    {b : ℕ} {y : α} (ne : r ≠ n) (atr : place r = some b)
    (now : place n = some a ∨ place n = none ∧ h a = none) (later : ∀ b, place' n = some b → b = a)
    (same : ∀ n', n' ≠ n → place' n' = place n') (parent : content' r = y)
    (others : ∀ n', n' ≠ n → n' ≠ r → place n' ≠ none → content' n' = content n') :
    Placed place' content' (update
      (update h a ((place' n).map fun _ => content' n)) b (some y)) := by
  classical
  have changed := placed.change place' (update content' r (content r)) now later same
    fun n' hn' there => by
      by_cases e : n' = r
      · rw [e, update_self]
      · rw [update_of_ne e, others n' hn' e there]
  rw [update_of_ne ne.symm] at changed
  refine changed.set ((same r ne).trans atr) rfl parent fun n' hn' _ => ?_
  rw [update_of_ne hn']

theorem count_le {first last k : ℕ} (within : ∀ a, h a ≠ none → first ≤ a ∧ a < last) (node : ℕ → ν)
    (distinct : ∀ i j, i < k → j < k → node i = node j → i = j) (all : ∀ i < k, place (node i) ≠ none) :
    k ≤ last - first := by
  have cell (i : Fin k) : ∃ a, place (node i) = some a :=
    Option.ne_none_iff_exists'.mp (all i i.isLt)
  choose f hf using cell
  have inj : Injective f := by
    intro i j same
    have := placed.inj (node i) (node j) (f i) (hf i) (same ▸ hf j)
    exact Fin.ext (distinct i j i.isLt j.isLt this)
  have maps : ∀ i, f i ∈ Finset.Ico first last := by
    intro i
    rw [Finset.mem_Ico]
    exact within (f i) (placed.own_iff.mpr ⟨_, hf i⟩)
  have card := Finset.card_le_card_of_injOn f (fun i _ => maps i) (s := Finset.univ)
    (fun i _ j _ h => inj h)
  simpa using card

end

end Placed
