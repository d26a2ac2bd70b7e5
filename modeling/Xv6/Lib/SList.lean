import Mathlib.Data.List.Nodup

/-!
# Circular singly linked lists

A list through the link `f` from a node over other nodes and back to it, the searches along the link,
and the change of one link.
-/

namespace SList

open List

variable {f g : ℕ → ℕ} {a b c p x y : ℕ} {l l₁ l₂ : List ℕ}

/-- The link leads from `a` over the nodes of `l` to `b`. -/
def Links (f : ℕ → ℕ) : ℕ → List ℕ → ℕ → Prop
  | a, [], b => f a = b
  | a, x :: l, b => f a = x ∧ Links f x l b

/-- The first node with `P` from `a` on, if it is among the first `k`. -/
def find (f : ℕ → ℕ) (P : ℕ → Bool) : (k a : ℕ) → Option ℕ
  | 0, _ => none
  | k + 1, a => if P a then some a else find f P k (f a)

/-! ## Links -/

theorem links_append : Links f a (l₁ ++ x :: l₂) b ↔ Links f a l₁ x ∧ Links f x l₂ b := by
  induction l₁ generalizing a with
  | nil => rfl
  | cons y l₁ ih =>
    simp only [cons_append, Links, ih]
    exact and_assoc.symm

theorem Links.congr (links : Links f a l b) (same : ∀ y ∈ a :: l, g y = f y) : Links g a l b := by
  induction l generalizing a with
  | nil =>
    rw [Links, same a mem_cons_self]
    exact links
  | cons x l ih =>
    refine ⟨?_, ih links.2 fun y hy => same y (mem_cons_of_mem a hy)⟩
    rw [same a mem_cons_self, links.1]

theorem Links.rotate (links : Links f a (l₁ ++ x :: l₂) a) : Links f x (l₂ ++ a :: l₁) x := by
  obtain ⟨first, second⟩ := links_append.mp links
  exact links_append.mpr ⟨second, first⟩

theorem Links.around (links : Links f a l a) (hx : x ∈ a :: l) :
    ∃ l', Links f x l' x ∧ (x :: l').Perm (a :: l) := by
  rcases mem_cons.mp hx with rfl | later
  · exact ⟨l, links, .refl _⟩
  · obtain ⟨l₁, l₂, rfl⟩ := append_of_mem later
    refine ⟨l₂ ++ a :: l₁, links.rotate, ?_⟩
    exact (perm_append_comm : ((x :: l₂) ++ (a :: l₁)).Perm _)

theorem Links.map (links : Links f a l b) : (a :: l).map f = l ++ [b] := by
  induction l generalizing a with
  | nil => exact congrArg (fun y => [y]) links
  | cons x l ih =>
    rw [map_cons, ih links.2, links.1]
    rfl

theorem Links.injective (links : Links f a l a) (nodup : (a :: l).Nodup) (hx : x ∈ a :: l)
    (hy : y ∈ a :: l) (same : f x = f y) : x = y := by
  have image : ((a :: l).map f).Nodup := by
    rw [links.map]
    exact (perm_append_singleton a l).nodup_iff.mpr nodup
  exact inj_on_of_nodup_map image hx hy same

theorem Links.last (links : Links f a l b) : f ((a :: l).getLast (cons_ne_nil a l)) = b := by
  induction l generalizing a with
  | nil => exact links
  | cons x l ih =>
    rw [getLast_cons (cons_ne_nil x l)]
    exact ih links.2

theorem Links.after (links : Links f a (l₁ ++ l₂) b) :
    Links f ((a :: l₁).getLast (cons_ne_nil a l₁)) l₂ b := by
  induction l₁ generalizing a with
  | nil => exact links
  | cons x l₁ ih =>
    rw [getLast_cons (cons_ne_nil x l₁)]
    exact ih links.2

theorem Links.append (first : Links f a l₁ c)
    (second : Links f ((a :: l₁).getLast (cons_ne_nil a l₁)) l₂ b) : Links f a (l₁ ++ l₂) b := by
  induction l₁ generalizing a with
  | nil => exact second
  | cons x l₁ ih =>
    rw [getLast_cons (cons_ne_nil x l₁)] at second
    exact ⟨first.1, ih first.2 second⟩

theorem Links.redirect (links : Links f a l b) (nodup : (a :: l).Nodup)
    (same : ∀ y ∈ a :: l, y ≠ (a :: l).getLast (cons_ne_nil a l) → g y = f y)
    (last : g ((a :: l).getLast (cons_ne_nil a l)) = c) : Links g a l c := by
  induction l generalizing a with
  | nil => exact last
  | cons x l ih =>
    rw [getLast_cons (cons_ne_nil x l)] at same last
    obtain ⟨absent, nodup'⟩ := nodup_cons.mp nodup
    refine ⟨?_, ih links.2 nodup' (fun y hy => same y (mem_cons_of_mem a hy)) last⟩
    rw [same a mem_cons_self fun isLast => absent ?_, links.1]
    rw [isLast]
    exact getLast_mem _

theorem Links.behind (links : Links f a l b) (head : g c = f a) (same : ∀ y ∈ l, g y = f y) :
    Links g c l b := by
  cases l with
  | nil =>
    rw [Links, head]
    exact links
  | cons x l =>
    refine ⟨head.trans links.1, links.2.congr same⟩

/-! ## Searches -/

theorem find_mono {P : ℕ → Bool} {k k' : ℕ} (le : k ≤ k') (found : find f P k a = some y) :
    find f P k' a = some y := by
  induction k generalizing a k' with
  | zero => exact absurd found (Option.some_ne_none y).symm
  | succ k ih =>
    obtain ⟨k', rfl⟩ : ∃ n, k' = n + 1 := ⟨k' - 1, by omega⟩
    rw [find] at found ⊢
    split_ifs at found ⊢ with here
    · exact found
    · exact ih (by omega) found

theorem Links.find {P : ℕ → Bool} (links : Links f a l b) (found : ∃ y ∈ a :: l, P y = true) {k : ℕ}
    (enough : l.length < k) : ∃ y ∈ a :: l, P y = true ∧ SList.find f P k a = some y := by
  induction l generalizing a k with
  | nil =>
    obtain ⟨y, hy, holds⟩ := found
    obtain rfl := mem_singleton.mp hy
    obtain ⟨k, rfl⟩ := Nat.exists_eq_succ_of_ne_zero (Nat.ne_zero_of_lt enough)
    exact ⟨y, hy, holds, if_pos holds⟩
  | cons x l ih =>
    obtain ⟨k, rfl⟩ := Nat.exists_eq_succ_of_ne_zero (Nat.ne_zero_of_lt enough)
    by_cases here : P a = true
    · exact ⟨a, mem_cons_self, here, if_pos here⟩
    · obtain ⟨y, hy, holds⟩ := found
      have later : y ∈ x :: l := by
        rcases mem_cons.mp hy with rfl | later
        · exact absurd holds here
        · exact later
      obtain ⟨z, hz, holds', result⟩ := ih links.2 ⟨y, later, holds⟩ (Nat.lt_of_succ_lt_succ enough)
      refine ⟨z, mem_cons_of_mem a hz, holds', ?_⟩
      rw [SList.find, if_neg here, links.1]
      exact result

end SList
