import Xv6.Lib.Intervals
import Xv6.User.Malloc

/-!
# The free list

What `free` and `malloc` do to the list of the free blocks: it stays circular, in the order of the
addresses, and no two of its blocks touch.
-/

namespace Xv6.User

open Function Intervals SList List Prod Header

variable {mem' : ℕ → Header} {y : ℕ}

/-- The free blocks, as intervals of addresses, are in the list from `base` on. -/
structure FreeList (base : ℕ) (mem : ℕ → Header) (bs : List (ℕ × ℕ)) : Prop where
  circle : Links (next mem) base (bs.map fst) base
  sizes : ∀ x ∈ bs, endOf mem x.1 = x.2
  empty : (mem base).size = 0
  sep : Separated bs
  above : ∀ x ∈ bs, base < x.1

namespace FreeList

variable {base : ℕ} {mem : ℕ → Header} {bs l₁ l₂ : List (ℕ × ℕ)}

abbrev nodes (base : ℕ) (bs : List (ℕ × ℕ)) : List ℕ := base :: bs.map fst

theorem sorted (h : FreeList base mem bs) : (nodes base bs).Pairwise (· < ·) := by
  refine pairwise_cons.mpr ⟨fun a ha => ?_, pairwise_map.mpr ?_⟩
  · obtain ⟨x, hx, rfl⟩ := mem_map.mp ha
    exact h.above x hx
  · refine List.Pairwise.imp_of_mem (fun {x y} hx _ apart => ?_) h.sep.apart
    exact lt_trans (h.sep.proper x hx) apart

theorem nodup (h : FreeList base mem bs) : (nodes base bs).Nodup :=
  h.sorted.imp fun lt => ne_of_lt lt

theorem congr (h : FreeList base mem bs) (links : ∀ y ∈ nodes base bs, next mem' y = next mem y)
    (sizes : ∀ y ∈ nodes base bs, (mem' y).size = (mem y).size) : FreeList base mem' bs := by
  refine ⟨h.circle.congr links, fun x hx => ?_, ?_, h.sep, h.above⟩
  · rw [endOf, sizes x.1 (mem_cons_of_mem _ (mem_map_of_mem hx))]
    exact h.sizes x hx
  · rw [sizes base mem_cons_self]
    exact h.empty

def before (base : ℕ) (l : List (ℕ × ℕ)) : ℕ := (nodes base l).getLast (cons_ne_nil _ _)

/-- The node behind the first part of the list, where `l` is the second part. -/
def behind (base : ℕ) : List (ℕ × ℕ) → ℕ
  | [] => base
  | x :: _ => x.1

theorem before_mem (base : ℕ) (l : List (ℕ × ℕ)) : before base l ∈ nodes base l := getLast_mem _

theorem before_concat (base : ℕ) (l : List (ℕ × ℕ)) (x : ℕ × ℕ) : before base (l ++ [x]) = x.1 := by
  simp [before, nodes]

theorem exists_before (hy : y ∈ nodes base bs) : ∃ l₁ l₂, bs = l₁ ++ l₂ ∧ y = before base l₁ := by
  rcases mem_cons.mp hy with rfl | hy
  · exact ⟨[], bs, rfl, rfl⟩
  · obtain ⟨x, hx, rfl⟩ := mem_map.mp hy
    obtain ⟨m, n, rfl⟩ := append_of_mem hx
    exact ⟨m ++ [x], n, by simp, (before_concat base m x).symm⟩

section

variable (h : FreeList base mem (l₁ ++ l₂))
include h

theorem links_before : Links (next mem) base (l₁.map fst) (behind base l₂) := by
  have circle := h.circle
  rw [map_append] at circle
  cases l₂ with
  | nil => rwa [map_nil, append_nil] at circle
  | cons x l₂ => exact (links_append.mp circle).1

theorem links_after : Links (next mem) (before base l₁) (l₂.map fst) base := by
  have circle := h.circle
  rw [map_append] at circle
  exact circle.after

theorem next_before :
    next mem (before base l₁) = behind base l₂ := h.links_before.last

theorem lt_of_parts (hy : y ∈ nodes base l₁) {x : ℕ × ℕ} (hx : x ∈ l₂) : y < x.1 := by
  have sorted := h.sorted
  rw [nodes, map_append, ← cons_append] at sorted
  exact (pairwise_append.mp sorted).2.2 y hy x.1 (mem_map_of_mem hx)

theorem le_before (hy : y ∈ nodes base l₁) : y ≤ before base l₁ := by
  have sorted := h.sorted
  rw [nodes, map_append, ← cons_append] at sorted
  have sorted := (pairwise_append.mp sorted).1
  rw [nodes, ← dropLast_append_getLast (cons_ne_nil base (l₁.map fst))] at hy
  rw [← dropLast_append_getLast (cons_ne_nil base (l₁.map fst))] at sorted
  rcases mem_append.mp hy with early | last
  · exact le_of_lt ((pairwise_append.mp sorted).2.2 y early _ mem_cons_self)
  · exact le_of_eq (mem_singleton.mp last)

end

/-! ## The place of a block -/

variable {bp hi : ℕ}

theorem of_fits (h : FreeList base mem bs) (above : base < bp) (hy : y ∈ nodes base bs)
    (fit : fits mem bp y = true) : ∃ l₁ l₂, bs = l₁ ++ l₂ ∧ y = before base l₁ ∧
      (∀ x ∈ l₁, x.1 < bp) ∧ ∀ x ∈ l₂, bp < x.1 := by
  obtain ⟨l₁, l₂, rfl, rfl⟩ := exists_before hy
  have below : before base l₁ < bp → ∀ x ∈ l₁, x.1 < bp := fun lt x hx =>
    lt_of_le_of_lt (h.le_before (mem_cons_of_mem _ (mem_map_of_mem hx))) lt
  refine ⟨l₁, l₂, rfl, rfl, ?_⟩
  simp only [fits, h.next_before, Bool.or_eq_true, Bool.and_eq_true, decide_eq_true_eq] at fit
  cases l₂ with
  | nil =>
    rw [behind] at fit
    exact ⟨below (by omega), fun x hx => absurd hx not_mem_nil⟩
  | cons z l₂ =>
    have step := h.lt_of_parts (before_mem base l₁) (mem_cons_self (a := z) (l := l₂))
    rw [behind] at fit
    refine ⟨below (by omega), fun x hx => ?_⟩
    have first : bp < z.1 := by omega
    rcases mem_cons.mp hx with rfl | later
    · exact first
    · obtain ⟨-, second, -⟩ := separated_append.mp h.sep
      obtain ⟨proper, -, across⟩ := separated_cons.mp second
      have := across x later
      omega

theorem exists_fits (h : FreeList base mem bs) (above : base < bp) (proper : bp < hi)
    (outside : ∀ x ∈ bs, x.2 ≤ bp ∨ hi ≤ x.1) : ∃ y ∈ nodes base bs, fits mem bp y = true := by
  obtain ⟨l₁, l₂, rfl, first, second⟩ := h.sep.split outside
  refine ⟨before base l₁, ?_, ?_⟩
  · rw [nodes, map_append, ← cons_append]
    exact mem_append_left _ (before_mem base l₁)
  have low : before base l₁ < bp := by
    rcases mem_cons.mp (before_mem base l₁) with isBase | inside
    · rwa [isBase]
    · obtain ⟨x, hx, same⟩ := mem_map.mp inside
      have := first x hx
      have := h.sep.proper x (mem_append_left _ hx)
      omega
  simp only [fits, h.next_before, Bool.or_eq_true, Bool.and_eq_true, decide_eq_true_eq]
  cases l₂ with
  | nil =>
    have := h.le_before (mem_cons_self (a := base) (l := l₁.map fst))
    rw [behind]
    omega
  | cons z l₂ =>
    have := second z mem_cons_self
    rw [behind]
    omega

/-! ## `free` -/

theorem endOf_join {a b c : ℕ} (first : endOf mem a = b) (second : endOf mem b = c)
    (small : c - a < HEADER * 2 ^ 32) (sum : (mem' a).size = (mem a).size + (mem b).size) :
    endOf mem' a = c := by
  simp only [endOf, HEADER] at first second small
  have fits : (mem a).size.toNat + (mem b).size.toNat < 2 ^ 32 := by omega
  rw [endOf, sum, BitVec.toNat_add, Nat.mod_eq_of_lt fits, HEADER]
  omega

theorem linkUp_spec (h : FreeList base mem (l₁ ++ l₂)) (size : endOf mem bp = hi) (low : base < bp)
    (proper : bp < hi) (above : ∀ x ∈ l₂, hi ≤ x.1)
    (small : ∀ d, (hi, d) ∈ l₂ → d - bp < HEADER * 2 ^ 32) :
    ∃ hi' l₂', ((hi' = hi ∧ l₂' = l₂ ∧ ∀ x ∈ l₂, hi < x.1) ∨ l₂ = (hi, hi') :: l₂') ∧
      Links (next (linkUp mem (behind base l₂) bp)) bp (l₂'.map fst) base ∧
      endOf (linkUp mem (behind base l₂) bp) bp = hi' ∧
      ∀ a ≠ bp, linkUp mem (behind base l₂) bp a = mem a := by
  have apart : ∀ x ∈ l₂, x.1 ≠ bp := fun x hx same => by
    have := above x hx
    omega
  by_cases touches : endOf mem bp = behind base l₂
  · -- The block is joined with the one behind it.
    cases l₂ with
    | nil =>
      rw [behind, size] at touches
      omega
    | cons z l₂ =>
      have unfolded : linkUp mem (behind base (z :: l₂)) bp =
          update mem bp ⟨next mem z.1, (mem bp).size + (mem z.1).size⟩ := if_pos touches
      obtain ⟨lo', d⟩ := z
      obtain rfl : hi = lo' := size.symm.trans touches
      have second : endOf mem hi = d := h.sizes (hi, d) (by simp)
      have split : FreeList base mem ((l₁ ++ [(hi, d)]) ++ l₂) := by
        rwa [append_assoc, singleton_append]
      have rest := split.links_after
      rw [before_concat] at rest
      rw [unfolded]
      refine ⟨d, l₂, .inr rfl, rest.behind ?_ fun y hy => ?_, ?_, fun a other => ?_⟩
      · rw [next, update_self]
      · obtain ⟨x, hx, rfl⟩ := mem_map.mp hy
        rw [next, update_of_ne (apart x (mem_cons_of_mem _ hx)), next]
      · exact endOf_join size second (small d mem_cons_self) (by rw [update_self])
      · exact update_of_ne other _ _
  · have unfolded : linkUp mem (behind base l₂) bp = setPtr mem bp (behind base l₂) := if_neg touches
    rw [unfolded]
    refine ⟨hi, l₂, .inl ⟨rfl, rfl, ?_⟩, h.links_after.behind ?_ fun y hy => ?_, ?_, fun a other => ?_⟩
    · cases l₂ with
      | nil => exact fun x hx => absurd hx not_mem_nil
      | cons z l₂ =>
        rw [behind, size] at touches
        have first := above z mem_cons_self
        obtain ⟨proper', -, across⟩ := separated_cons.mp (separated_append.mp h.sep).2.1
        refine forall_mem_cons.mpr ⟨by omega, fun x hx => ?_⟩
        have := across x hx
        omega
    · rw [next, setPtr, update_self, h.next_before]
    · obtain ⟨x, hx, rfl⟩ := mem_map.mp hy
      rw [next, setPtr, update_of_ne (apart x hx), next]
    · rw [endOf, setPtr, update_self]
      exact size
    · exact update_of_ne other _ _

end FreeList

/-- `free` is half done: the block from `bp` to `hi` and the part `l` of the free list hang together, and
nothing else has changed since the list was `l₁` and `l₂`. -/
structure Hangs (base : ℕ) (mem mem₁ : ℕ → Header) (l₁ l₂ l : List (ℕ × ℕ)) (bp hi : ℕ) : Prop where
  old : FreeList base mem (l₁ ++ l₂)
  links : Links (next mem₁) bp (l.map fst) base
  size : endOf mem₁ bp = hi
  same : ∀ a ≠ bp, mem₁ a = mem a
  rest : ∀ x ∈ l, x ∈ l₂
  low : base < bp
  below : ∀ x ∈ l₁, x.2 ≤ bp
  above : ∀ x ∈ l₂, bp < x.1

namespace Hangs

open FreeList

variable {base bp hi : ℕ} {mem mem₁ mem₂ : ℕ → Header} {l₁ l₂ l m : List (ℕ × ℕ)}

section

variable (h : Hangs base mem mem₁ l₁ l₂ l bp hi)
include h

theorem lower (hy : y ∈ nodes base l₁) : y ≠ bp := by
  rintro rfl
  rcases mem_cons.mp hy with rfl | inside
  · exact lt_irrefl _ h.low
  · obtain ⟨x, hx, rfl⟩ := mem_map.mp inside
    have := h.below x hx
    have := h.old.sep.proper x (mem_append_left _ hx)
    omega

theorem higher {x : ℕ × ℕ} (hx : x ∈ l) : x.1 ≠ before base l₁ :=
  Nat.ne_of_gt (h.old.lt_of_parts (before_mem base l₁) (h.rest x hx))

theorem sizes {x : ℕ × ℕ} (hx : x ∈ l₁ ++ l) : endOf mem₁ x.1 = x.2 := by
  rcases mem_append.mp hx with hx | hx
  · rw [endOf, h.same x.1 (h.lower (mem_cons_of_mem _ (mem_map_of_mem hx)))]
    exact h.old.sizes x (mem_append_left _ hx)
  · rw [endOf, h.same x.1 (Nat.ne_of_gt (h.above x (h.rest x hx)))]
    exact h.old.sizes x (mem_append_right _ (h.rest x hx))

theorem empty : (mem₁ base).size = 0 := by
  rw [h.same base (ne_of_lt h.low)]
  exact h.old.empty

theorem links_before : Links (next mem₁) base (l₁.map fst) (behind base l₂) :=
  h.old.links_before.congr fun y hy => congrArg ptr (h.same y (h.lower hy))

theorem nodup : (nodes base l₁).Nodup := by
  have := h.old.nodup
  rw [nodes, map_append, ← cons_append] at this
  exact this.of_append_left

end

theorem join {c : ℕ} (h : Hangs base mem mem₁ (m ++ [(c, bp)]) l₂ l bp hi)
    (small : hi - c < HEADER * 2 ^ 32)
    (result : mem₂ = update mem₁ c ⟨next mem₁ bp, (mem₁ c).size + (mem₁ bp).size⟩) :
    Links (next mem₂) base ((m ++ (c, hi) :: l).map fst) base ∧
      (∀ x ∈ m ++ (c, hi) :: l, endOf mem₂ x.1 = x.2) ∧ (mem₂ base).size = 0 := by
  subst result
  have nodup := h.nodup
  rw [nodes, map_append, ← cons_append] at nodup
  have first : ∀ y ∈ nodes base m, y ≠ c := fun y hy eq =>
    disjoint_of_nodup_append nodup hy (by simp [eq])
  have higher : ∀ x ∈ l, x.1 ≠ c := fun x hx => by
    have := h.higher hx
    rwa [before_concat] at this
  have links := h.links_before
  rw [map_append] at links
  refine ⟨?_, fun x hx => ?_, ?_⟩
  · rw [map_append, map_cons]
    refine links_append.mpr ⟨(links_append.mp links).1.congr fun y hy => ?_,
      h.links.behind ?_ fun y hy => ?_⟩
    · exact congrArg ptr (update_of_ne (first y hy) _ _)
    · rw [next, update_self]
    · obtain ⟨x, hx, rfl⟩ := mem_map.mp hy
      exact congrArg ptr (update_of_ne (higher x hx) _ _)
  · rcases mem_append.mp hx with hx | hx
    · rw [endOf, update_of_ne (first x.1 (mem_cons_of_mem _ (mem_map_of_mem hx)))]
      exact h.sizes (by simp [hx])
    rcases mem_cons.mp hx with rfl | hx
    · have first : endOf mem₁ c = bp := h.sizes (x := (c, bp)) (by simp)
      exact endOf_join first h.size small (by rw [update_self])
    · rw [endOf, update_of_ne (higher x hx)]
      exact h.sizes (mem_append_right _ hx)
  · rw [update_of_ne (first base mem_cons_self)]
    exact h.empty

theorem put (h : Hangs base mem mem₁ l₁ l₂ l bp hi) (result : mem₂ = setPtr mem₁ (before base l₁) bp) :
    Links (next mem₂) base ((l₁ ++ (bp, hi) :: l).map fst) base ∧
      (∀ x ∈ l₁ ++ (bp, hi) :: l, endOf mem₂ x.1 = x.2) ∧ (mem₂ base).size = 0 := by
  subst result
  refine ⟨?_, fun x hx => ?_, ?_⟩
  · rw [map_append, map_cons]
    refine links_append.mpr ⟨h.links_before.redirect h.nodup (fun y hy other => ?_) ?_,
      h.links.congr fun y hy => ?_⟩
    · exact congrArg ptr (update_of_ne other _ _)
    · exact (congrArg ptr (update_self (before base l₁) _ mem₁) :)
    · refine congrArg ptr (update_of_ne ?_ _ _)
      rcases mem_cons.mp hy with rfl | hy
      · exact (h.lower (before_mem base l₁)).symm
      · obtain ⟨x, hx, rfl⟩ := mem_map.mp hy
        exact h.higher hx
  · rw [endOf, size_setPtr]
    rcases mem_append.mp hx with hx | hx
    · exact h.sizes (mem_append_left _ hx)
    rcases mem_cons.mp hx with rfl | hx
    · exact h.size
    · exact h.sizes (mem_append_right _ hx)
  · rw [size_setPtr]
    exact h.empty

theorem below_of_apart (h : Hangs base mem mem₁ l₁ l₂ l bp hi)
    (apart : endOf mem₁ (before base l₁) ≠ bp) : ∀ x ∈ l₁, x.2 < bp := by
  intro x hx
  rcases eq_nil_or_concat l₁ with rfl | ⟨m, z, rfl⟩
  · exact absurd hx not_mem_nil
  rw [concat_eq_append] at *
  rw [before_concat, h.sizes (by simp)] at apart
  have last := h.below z (by simp)
  rcases mem_append.mp hx with hx | hx
  · have := (separated_append.mp (separated_append.mp h.old.sep).1).2.2 x hx z (by simp)
    have := h.old.sep.proper z (by simp)
    omega
  · obtain rfl := mem_singleton.mp hx
    omega

theorem linkDown_spec (h : Hangs base mem mem₁ l₁ l₂ l bp hi)
    (small : ∀ c, (c, bp) ∈ l₁ → hi - c < HEADER * 2 ^ 32)
    (result : mem₂ = linkDown mem₁ (before base l₁) bp) :
    ∃ r, (((∀ x ∈ l₁, x.2 < bp) ∧ r = l₁ ++ (bp, hi) :: l) ∨
        ∃ m c, l₁ = m ++ [(c, bp)] ∧ r = m ++ (c, hi) :: l) ∧
      (Links (next mem₂) base (r.map fst) base ∧ (∀ x ∈ r, endOf mem₂ x.1 = x.2) ∧
        (mem₂ base).size = 0) ∧
      before base l₁ ∈ nodes base r ∧ ∀ a ≠ before base l₁, mem₂ a = mem₁ a := by
  by_cases touches : endOf mem₁ (before base l₁) = bp
  · rcases eq_nil_or_concat l₁ with rfl | ⟨m, ⟨c, e⟩, rfl⟩
    · -- The list's own header has no block, so that it touches nothing.
      have stays : endOf mem₁ base = base := by rw [endOf, h.empty]; rfl
      exact absurd (stays.symm.trans touches) (ne_of_lt h.low)
    rw [concat_eq_append] at *
    rw [linkDown, if_pos touches] at result
    rw [before_concat] at *
    obtain rfl : bp = e := touches.symm.trans (h.sizes (x := (c, e)) (by simp))
    refine ⟨m ++ (c, hi) :: l, .inr ⟨m, c, rfl, rfl⟩, h.join (small c (by simp)) result, by simp,
      fun a other => ?_⟩
    rw [result, update_of_ne other]
  · rw [linkDown, if_neg touches] at result
    refine ⟨l₁ ++ (bp, hi) :: l, .inl ⟨h.below_of_apart touches, rfl⟩, h.put result, ?_,
      fun a other => ?_⟩
    · rw [nodes, map_append, ← cons_append]
      exact mem_append_left _ (before_mem base l₁)
    · rw [result, setPtr, update_of_ne other]

end Hangs

namespace FreeList

variable {base bp hi : ℕ} {mem : ℕ → Header} {bs l₁ l₂ : List (ℕ × ℕ)} {s : Heap}

/-- `free` puts a block into the list and joins it with the free blocks that it touches. -/
theorem free_spec (h : FreeList base s.mem bs) (node : s.freep ∈ nodes base bs)
    (size : endOf s.mem bp = hi) (low : base < bp) (proper : bp < hi)
    (outside : ∀ x ∈ bs, x.2 ≤ bp ∨ hi ≤ x.1)
    (small : ∀ c d, c ≤ bp → hi ≤ d → (∀ a, c ≤ a → a < d → Covers bs a ∨ (bp ≤ a ∧ a < hi)) →
      d - c < HEADER * 2 ^ 32) {fuel : ℕ} (enough : bs.length < fuel) :
    ∃ mem' p l₁ l₂ r, free fuel s (bp + HEADER) = some { s with mem := mem', freep := p } ∧
      bs = l₁ ++ l₂ ∧ Joined bp hi l₁ l₂ r ∧ FreeList base mem' r ∧ p ∈ nodes base r ∧
      ∀ a ≠ bp, a ∉ nodes base bs → mem' a = s.mem a := by
  -- The search starts somewhere on the circle.
  obtain ⟨l, links, perm⟩ := h.circle.around node
  have short : l.length < fuel := by
    have := perm.length_eq
    simp only [length_cons, length_map] at this
    omega
  obtain ⟨y, hy, fit⟩ := h.exists_fits low proper outside
  obtain ⟨p, hp, fit, found⟩ := links.find ⟨y, perm.mem_iff.mpr hy, fit⟩ short
  obtain ⟨l₁, l₂, rfl, rfl, below, above⟩ := h.of_fits low (perm.mem_iff.mp hp) fit
  have first : ∀ x ∈ l₁, x.2 ≤ bp := fun x hx => by
    have := below x hx
    have := outside x (mem_append_left _ hx)
    omega
  have second : ∀ x ∈ l₂, hi ≤ x.1 := fun x hx => by
    have := above x hx
    have := h.sep.proper x (mem_append_right _ hx)
    have := outside x (mem_append_right _ hx)
    omega
  have smallUp : ∀ d, (hi, d) ∈ l₂ → d - bp < HEADER * 2 ^ 32 := fun d hd => by
    have inside := h.sep.proper _ (mem_append_right l₁ hd)
    refine small bp d (le_refl _) (le_of_lt inside) fun a lower upper => ?_
    by_cases here : a < hi
    · exact .inr ⟨lower, here⟩
    · exact .inl ⟨_, mem_append_right l₁ hd, Nat.le_of_not_lt here, upper⟩
  obtain ⟨hi', rest, joined, links', size', same⟩ :=
    h.linkUp_spec size low proper second smallUp
  have inside : hi ≤ hi' ∧ ∀ a, hi ≤ a → a < hi' → Covers (l₁ ++ l₂) a := by
    rcases joined with ⟨rfl, -, -⟩ | rfl
    · exact ⟨le_refl _, fun a lower upper => absurd lower (Nat.not_le_of_lt upper)⟩
    · refine ⟨le_of_lt (h.sep.proper (hi, hi') (by simp)), fun a lower upper => ?_⟩
      exact ⟨(hi, hi'), by simp, lower, upper⟩
  have part : ∀ x ∈ rest, x ∈ l₂ := by
    rcases joined with ⟨-, rfl, -⟩ | rfl
    · exact fun x hx => hx
    · exact fun x hx => mem_cons_of_mem _ hx
  have hangs : Hangs base s.mem (linkUp s.mem (behind base l₂) bp) l₁ l₂ rest bp hi' :=
    ⟨h, links', size', same, part, low, first, above⟩
  have smallDown : ∀ c, (c, bp) ∈ l₁ → hi' - c < HEADER * 2 ^ 32 := fun c hc => by
    have order := h.sep.proper _ (mem_append_left l₂ hc)
    refine small c hi' (le_of_lt order) inside.1 fun a lower upper => ?_
    by_cases early : a < bp
    · exact .inl ⟨_, mem_append_left l₂ hc, lower, early⟩
    by_cases here : a < hi
    · exact .inr ⟨Nat.le_of_not_lt early, here⟩
    · exact .inl (inside.2 a (Nat.le_of_not_lt here) upper)
  obtain ⟨r, shape, ⟨circle, sizes, empty⟩, onList, frame⟩ := hangs.linkDown_spec smallDown rfl
  have whole : Joined bp hi l₁ l₂ r := by
    rcases joined with ⟨rfl, rfl, apart⟩ | rfl
    · rcases shape with ⟨apart', rfl⟩ | ⟨m, c, rfl, rfl⟩
      · exact .alone apart' apart
      · exact .down apart
    · rcases shape with ⟨apart', rfl⟩ | ⟨m, c, rfl, rfl⟩
      · exact .up apart'
      · exact .both
  refine ⟨_, before base l₁, l₁, l₂, r, ?_, rfl, whole,
    ⟨circle, sizes, empty, whole.separated h.sep proper, fun x hx => ?_⟩, onList,
    fun a other absent => ?_⟩
  · rw [free, Nat.add_sub_cancel, found, Option.map_some, h.next_before]
  · rcases whole.start hx with same | ⟨y, hy, same⟩
    · rwa [same]
    · rw [← same]
      exact h.above y hy
  · rw [frame a, same a other]
    rintro rfl
    refine absent ?_
    rw [nodes, map_append, ← cons_append]
    exact mem_append_left _ (before_mem base l₁)

/-! ## `malloc` -/

theorem unlink {c d : ℕ} (h : FreeList base mem (l₁ ++ (c, d) :: l₂)) :
    FreeList base (setPtr mem (before base l₁) (next mem c)) (l₁ ++ l₂) := by
  have after : FreeList base mem ((l₁ ++ [(c, d)]) ++ l₂) := by
    rwa [append_assoc, singleton_append]
  have rest := after.links_after
  rw [before_concat] at rest
  have nodup := h.nodup
  rw [nodes, map_append, ← cons_append] at nodup
  have part : ∀ x ∈ l₁ ++ l₂, x ∈ l₁ ++ (c, d) :: l₂ := fun x hx => by
    rcases mem_append.mp hx with hx | hx
    · exact mem_append_left _ hx
    · exact mem_append_right _ (mem_cons_of_mem _ hx)
  refine ⟨?_, fun x hx => ?_, ?_, ?_, fun x hx => h.above x (part x hx)⟩
  · have moved : next (setPtr mem (before base l₁) (next mem c)) (before base l₁) = next mem c := by
      rw [next, setPtr, update_self]
    rw [map_append]
    refine (h.links_before.redirect nodup.of_append_left (fun y hy other => ?_) moved).append
      (rest.behind moved fun y hy => ?_)
    · exact congrArg ptr (update_of_ne other _ _)
    · obtain ⟨x, hx, rfl⟩ := mem_map.mp hy
      have higher := h.lt_of_parts (before_mem base l₁) (mem_cons_of_mem (c, d) hx)
      exact congrArg ptr (update_of_ne (Nat.ne_of_gt higher) _ _)
  · rw [endOf, size_setPtr]
    exact h.sizes x (part x hx)
  · rw [size_setPtr]
    exact h.empty
  · exact (Cut.whole : Cut c d _ _).separated h.sep (h.sep.proper (c, d) (by simp))

theorem shrink {c d q : ℕ} (h : FreeList base mem (l₁ ++ (c, d) :: l₂))
    (inside : c < q) (upper : q < d) (links : next mem' = next mem) (size : endOf mem' c = q)
    (same : ∀ a, a ≠ c → a ≠ q → mem' a = mem a) : FreeList base mem' (l₁ ++ (c, q) :: l₂) := by
  obtain ⟨-, second, across⟩ := separated_append.mp h.sep
  obtain ⟨-, -, later⟩ := separated_cons.mp second
  have bottom : base < c := h.above (c, d) (by simp)
  refine ⟨?_, fun x hx => ?_, ?_, (Cut.tail inside).separated h.sep upper, fun x hx => ?_⟩
  · have circle := h.circle
    rw [map_append, map_cons] at circle ⊢
    rwa [links]
  · rcases mem_append.mp hx with hx | hx
    · have apart := across x hx _ mem_cons_self
      have order := h.sep.proper x (mem_append_left _ hx)
      dsimp only at apart
      rw [endOf, same x.1 (by omega) (by omega)]
      exact h.sizes x (mem_append_left _ hx)
    rcases mem_cons.mp hx with rfl | hx
    · exact size
    · have apart := later x hx
      dsimp only at apart
      rw [endOf, same x.1 (by omega) (by omega)]
      exact h.sizes x (by simp [hx])
  · rw [same base (by omega) (by omega)]
    exact h.empty
  · rcases mem_append.mp hx with hx | hx
    · exact h.above x (mem_append_left _ hx)
    rcases mem_cons.mp hx with rfl | hx
    · exact bottom
    · exact h.above x (by simp [hx])

theorem take_spec {c d q : ℕ} {nunits : BitVec 32} (h : FreeList base s.mem (l₁ ++ (c, d) :: l₂))
    (pos : 0 < nunits.toNat) (big : nunits ≤ (s.mem c).size) (start : q + HEADER * nunits.toNat = d) :
    ∃ mem' r, take s nunits (before base l₁) c =
        ({ s with mem := mem', freep := before base l₁ }, .block (q + HEADER)) ∧
      Cut q d (l₁ ++ (c, d) :: l₂) r ∧ FreeList base mem' r ∧ before base l₁ ∈ nodes base r ∧
      (mem' q).size = nunits ∧
      ∀ a ≠ q, a ∉ nodes base (l₁ ++ (c, d) :: l₂) → mem' a = s.mem a := by
  have size : c + HEADER * (s.mem c).size.toNat = d := h.sizes (c, d) (by simp)
  have left : ∀ l, before base l₁ ∈ nodes base (l₁ ++ l) := fun l => by
    rw [nodes, map_append, ← cons_append]
    exact mem_append_left _ (before_mem base l₁)
  rw [BitVec.le_def] at big
  by_cases whole : (s.mem c).size = nunits
  · obtain rfl : q = c := by
      rw [whole] at size
      omega
    refine ⟨_, _, if_pos whole, .whole, h.unlink, left l₂, ?_, fun a _ absent => ?_⟩
    · rw [size_setPtr, whole]
    · refine update_of_ne ?_ _ _
      rintro rfl
      exact absent (left _)
  · have more : nunits.toNat < (s.mem c).size.toNat := by
      refine lt_of_le_of_ne big fun eq => whole ?_
      exact (BitVec.eq_of_toNat_eq eq).symm
    have rest : ((s.mem c).size - nunits).toNat = (s.mem c).size.toNat - nunits.toNat :=
      BitVec.toNat_sub_of_le big
    have cut : endOf (setSize s.mem c ((s.mem c).size - nunits)) c = q := by
      rw [endOf, setSize, update_self, rest]
      simp only [HEADER] at *
      omega
    have inside : c < q := by
      simp only [HEADER] at *
      omega
    have upper : q < d := by
      simp only [HEADER] at *
      omega
    refine ⟨setSize (setSize s.mem c ((s.mem c).size - nunits)) q nunits, l₁ ++ (c, q) :: l₂, ?_,
      .tail inside, h.shrink inside upper ?_ ?_ fun a first second => ?_, left _, ?_,
      fun a other absent => ?_⟩
    · rw [take, if_neg whole]
      dsimp only
      rw [cut]
    · rw [next_setSize, next_setSize]
    · rw [← cut, endOf, setSize, update_of_ne (by rw [cut]; omega), endOf]
    · rw [setSize, update_of_ne second, setSize, update_of_ne first]
    · rw [setSize, update_self]
    · rw [setSize, update_of_ne other, setSize, update_of_ne]
      rintro rfl
      exact absent (by simp)

end FreeList

end Xv6.User
