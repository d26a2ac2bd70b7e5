import Mathlib.Data.List.Nodup

/-!
# Circular doubly linked lists

A list through the links `next` and `prev` from a head and back to it, the search along one of the
links, and the two updates that remove a node and insert it behind the head.
-/

namespace DList

open Function List DList

variable {next prev next' prev' f : ℕ → ℕ} {a b h x : ℕ} {l l₁ l₂ : List ℕ}

/-- The links lead from `a` over the nodes of `l` to `b`, and back. -/
def Linked (next prev : ℕ → ℕ) : ℕ → List ℕ → ℕ → Prop
  | a, [], b => next a = b ∧ prev b = a
  | a, x :: l, b => (next a = x ∧ prev x = a) ∧ Linked next prev x l b

/-- The links form a circle from the head `h` over the nodes of `l`. -/
structure Circle (next prev : ℕ → ℕ) (h : ℕ) (l : List ℕ) : Prop where
  nodup : (h :: l).Nodup
  linked : Linked next prev h l h

/-- The nodes from `a` up to the head, if the walk returns to it within `k` steps. -/
def visit (f : ℕ → ℕ) (h : ℕ) : (k a : ℕ) → Option (List ℕ)
  | 0, _ => none
  | k + 1, a => if a = h then some [] else (visit f h k (f a)).map (a :: ·)

def search (f : ℕ → ℕ) (h : ℕ) (P : ℕ → Bool) : (k a : ℕ) → Option ℕ
  | 0, _ => none
  | k + 1, a => if a = h then none else if P a then some a else search f h P k (f a)

/-! ## Segments -/

theorem linked_append : Linked next prev a (l₁ ++ x :: l₂) b ↔
    Linked next prev a l₁ x ∧ Linked next prev x l₂ b := by
  induction l₁ generalizing a with
  | nil => rfl
  | cons y l₁ ih =>
    simp only [cons_append, Linked, ih]
    exact and_assoc.symm

theorem Linked.congr (linked : Linked next prev a l b) (forth : ∀ y ∈ a :: l, next' y = next y)
    (back : ∀ y ∈ l ++ [b], prev' y = prev y) : Linked next' prev' a l b := by
  induction l generalizing a with
  | nil =>
    refine ⟨?_, ?_⟩
    · rw [forth a (mem_cons_self ..)]
      exact linked.1
    · rw [back b (by simp)]
      exact linked.2
  | cons x l ih =>
    obtain ⟨⟨hn, hp⟩, rest⟩ := linked
    refine ⟨⟨?_, ?_⟩, ih rest ?_ ?_⟩
    · rw [forth a (mem_cons_self ..), hn]
    · rw [back x (by simp), hp]
    · exact fun y hy => forth y (mem_cons_of_mem a hy)
    · exact fun y hy => back y (by simp only [cons_append, mem_cons]; exact .inr hy)

theorem Linked.reverse (linked : Linked next prev a l b) : Linked prev next b l.reverse a := by
  induction l generalizing a with
  | nil => exact ⟨linked.2, linked.1⟩
  | cons x l ih =>
    rw [reverse_cons, linked_append]
    exact ⟨ih linked.2, linked.1.2, linked.1.1⟩

theorem Circle.reverse (circle : Circle next prev h l) : Circle prev next h l.reverse := by
  refine ⟨?_, circle.linked.reverse⟩
  have := circle.nodup
  rw [nodup_cons] at this ⊢
  exact ⟨fun mem => this.1 (mem_reverse.mp mem), nodup_reverse.mpr this.2⟩

theorem Linked.next_eq (linked : Linked next prev a l b) : next a = l.headD b := by
  cases l with
  | nil => exact linked.1
  | cons x l => exact linked.1.1

theorem Linked.prev_mem (linked : Linked next prev a l b) : prev b ∈ a :: l := by
  induction l generalizing a with
  | nil =>
    rw [linked.2]
    exact mem_cons_self ..
  | cons x l ih => exact mem_cons_of_mem a (ih linked.2)

/-! ## Walking along the links -/

theorem Linked.visit (linked : Linked next prev a l h) (out : h ∉ l) {k : ℕ} (long : l.length < k) :
    visit next h k (next a) = some l := by
  induction l generalizing a k with
  | nil =>
    obtain ⟨k, rfl⟩ := Nat.exists_eq_add_of_lt long
    rw [linked.1, visit, if_pos rfl]
  | cons x l ih =>
    obtain ⟨k, rfl⟩ : ∃ k', k = k' + 1 := ⟨k - 1, by rw [length_cons] at long; omega⟩
    rw [mem_cons, not_or] at out
    rw [linked.1.1, visit, if_neg (Ne.symm out.1),
      ih linked.2 out.2 (by rw [length_cons] at long; omega), Option.map_some]

theorem Linked.search (linked : Linked next prev a l h) (out : h ∉ l) (P : ℕ → Bool) {k : ℕ}
    (long : l.length < k) : search next h P k (next a) = l.find? P := by
  induction l generalizing a k with
  | nil =>
    obtain ⟨k, rfl⟩ := Nat.exists_eq_add_of_lt long
    rw [linked.1, search, if_pos rfl, find?_nil]
  | cons x l ih =>
    obtain ⟨k, rfl⟩ : ∃ k', k = k' + 1 := ⟨k - 1, by rw [length_cons] at long; omega⟩
    rw [mem_cons, not_or] at out
    rw [linked.1.1, search, if_neg (Ne.symm out.1)]
    by_cases found : P x
    · rw [if_pos found, find?_cons_of_pos found]
    · rw [if_neg found, find?_cons_of_neg found,
        ih linked.2 out.2 (by rw [length_cons] at long; omega)]

theorem Circle.visit (circle : Circle next prev h l) {k : ℕ} (long : l.length < k) :
    visit next h k (next h) = some l :=
  circle.linked.visit (nodup_cons.mp circle.nodup).1 long

theorem Circle.search (circle : Circle next prev h l) (P : ℕ → Bool) {k : ℕ} (long : l.length < k) :
    search next h P k (next h) = l.find? P :=
  circle.linked.search (nodup_cons.mp circle.nodup).1 P long

/-! ## Removing and inserting a node -/

theorem Circle.unlink (circle : Circle next prev h (l₁ ++ x :: l₂)) :
    Circle (update next (prev x) (next x)) (update prev (next x) (prev x)) h
      (l₁ ++ l₂) := by
  obtain ⟨nodup, linked⟩ := circle
  obtain ⟨left, right⟩ := linked_append.mp linked
  -- the segments on both sides, for any start
  have join (a : ℕ) (l₁ : List ℕ) (left : Linked next prev a l₁ x)
      (distinct : (a :: l₁ ++ l₂).Nodup) (fresh : ∀ y ∈ l₁, y ≠ h) :
      (∀ y ∈ l₂, y ≠ h) → l₂.Nodup →
      Linked (update next (prev x) (next x)) (update prev (next x) (prev x)) a
        (l₁ ++ l₂) h := by
    intro fresh₂ nodup₂
    induction l₁ generalizing a with
    | nil =>
      obtain ⟨-, rfl⟩ := left
      rw [nil_append]
      cases l₂ with
      | nil =>
        rw [right.1]
        exact ⟨update_self .., update_self ..⟩
      | cons y l₂ =>
        rw [right.1.1]
        refine ⟨⟨update_self .., update_self ..⟩, right.2.congr ?_ ?_⟩
        · intro z hz
          refine update_of_ne ?_ _ _
          rintro rfl
          exact (nodup_cons.mp distinct).1 hz
        · intro z hz
          refine update_of_ne ?_ _ _
          rintro rfl
          rcases mem_append.mp hz with mem | mem
          · exact (nodup_cons.mp nodup₂).1 mem
          · exact fresh₂ z (mem_cons_self ..) (mem_singleton.mp mem)
    | cons z l₁ ih =>
      obtain ⟨⟨hn, hp⟩, rest⟩ := left
      have last := rest.prev_mem
      have target : next x = l₂.headD h := right.next_eq
      refine ⟨⟨?_, ?_⟩, ih z rest (nodup_cons.mp distinct).2 fun y hy => fresh y (by simp [hy])⟩
      · rw [update_of_ne, hn]
        intro e
        refine (nodup_cons.mp distinct).1 ?_
        rw [e]
        exact mem_append_left _ last
      · rw [update_of_ne, hp]
        intro e
        rw [target] at e
        cases l₂ with
        | nil => exact fresh z (mem_cons_self ..) e
        | cons y l₂ =>
          have := (nodup_cons.mp (nodup_cons.mp distinct).2).1
          exact this (by simp [show z = y from e])
  have parts := nodup_cons.mp nodup
  have distinct : (h :: l₁ ++ l₂).Nodup := by
    refine List.Nodup.sublist ?_ nodup
    exact List.Sublist.cons_cons h (List.Sublist.append_left (sublist_cons_self x l₂) l₁)
  refine ⟨distinct, join h l₁ left distinct ?_ ?_ ?_⟩
  · rintro y hy rfl
    exact parts.1 (mem_append_left _ hy)
  · rintro y hy rfl
    exact parts.1 (mem_append_right _ (mem_cons_of_mem x hy))
  · exact (nodup_cons.mp parts.2.of_append_right).2

theorem Circle.linkFront (circle : Circle next prev h l) (fresh : x ∉ h :: l) :
    Circle (update (update next x (next h)) h x)
      (update (update prev x h) (next h) x) h (x :: l) := by
  obtain ⟨nodup, linked⟩ := circle
  have ne : x ≠ h := fun e => fresh (by simp [e])
  have target := linked.next_eq
  have apart : next h ≠ x := by
    rw [target]
    cases l with
    | nil => exact ne.symm
    | cons y l =>
      intro e
      exact fresh (by simp [show y = x from e])
  have parts := nodup_cons.mp nodup
  refine ⟨?_, ⟨update_self .., ?_⟩, ?_⟩
  · rw [nodup_cons, mem_cons, not_or, nodup_cons]
    exact ⟨⟨ne.symm, parts.1⟩, fun mem => fresh (mem_cons_of_mem h mem), parts.2⟩
  · rw [update_of_ne apart.symm, update_self]
  · cases l with
    | nil =>
      rw [linked.1]
      refine ⟨?_, update_self ..⟩
      rw [update_of_ne ne, update_self]
    | cons y l =>
      rw [linked.1.1]
      refine ⟨⟨?_, update_self ..⟩, linked.2.congr ?_ ?_⟩
      · rw [update_of_ne ne, update_self]
      · intro z hz
        have : z ≠ h := fun e => parts.1 (e ▸ hz)
        have other : z ≠ x := fun e => fresh (mem_cons_of_mem h (e ▸ hz))
        rw [update_of_ne this, update_of_ne other]
      · intro z hz
        have other : z ≠ x := by
          rintro rfl
          rcases mem_append.mp hz with mem | mem
          · exact fresh (by simp [mem])
          · exact ne (mem_singleton.mp mem)
        have first : z ≠ y := by
          rintro rfl
          rcases mem_append.mp hz with mem | mem
          · exact (nodup_cons.mp parts.2).1 mem
          · exact parts.1 (by simp [← mem_singleton.mp mem])
        rw [update_of_ne first, update_of_ne other]

end DList
