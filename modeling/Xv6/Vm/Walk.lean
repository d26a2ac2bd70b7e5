import Xv6.Vm.Prog
import Xv6.Vm.Table

/-!
# Walking page tables

What the operations do to the pages that a process owns, and from this what `walk`, `mappages`,
`uvmunmap` and `freewalk` do to a page table.
-/

namespace Xv6.Vm

open Function Heap Table Option

open Assertion (Star)

def owned (ram : Ram) : Protocol MemSig (Heap Page) where
  Allowed _ h o := match o with
    | .panic _ | .deeper => False
    | .kalloc => True
    | .kfree pg | .load pg _ | .store pg _ _ | .clear pg | .read pg _ _ | .write pg _ _ =>
        h pg ≠ none
  Next _ h o := match o with
    | .panic _ | .deeper => fun _ _ => False
    | .kalloc => fun r h' => match r with
        | none => h' = h
        | some pg => h pg = none ∧ (ram.first ≤ pg ∧ pg < ram.last) ∧
            h' = update h pg (some (fill 5))
    | .kfree pg => fun _ h' => h' = update h pg none
    | .load pg i => fun r h' => h' = h ∧ ∃ x, h pg = some x ∧ r = pte x i
    | .store pg i v => fun _ h' =>
        ∃ x, h pg = some x ∧ h' = update h pg (some (setPte x i v))
    | .clear pg => fun _ h' => h' = update h pg (some (fill 0))
    | .read pg off n => fun r h' => h' = h ∧ ∃ x, h pg = some x ∧ r = slice x off n
    | .write pg off bytes => fun _ h' =>
        ∃ x, h pg = some x ∧ h' = update h pg (some (splice x off bytes))

theorem owned_local (ram : Ram) : (owned ram).Local := by
  constructor
  · intro p h f o apart allowed
    have keep {pg : ℕ} (own : h pg ≠ none) : h.join f pg ≠ none :=
      fun free => own (join_eq_none.mp free).1
    cases o with
    | panic | deeper => exact allowed
    | kalloc => trivial
    | kfree | load | store | clear | read | write => exact keep allowed
  · intro p h f o r h' apart allowed next
    have left {pg : ℕ} (own : h pg ≠ none) {x : Page} (hx : h.join f pg = some x) :
        h pg = some x := by
      obtain ⟨y, hy⟩ := ne_none_iff_exists'.mp own
      rwa [join_of_left hy, ← hy] at hx
    cases o with
    | panic | deeper => exact next.elim
    | kalloc =>
      cases r with
      | none => exact ⟨h, apart, next, rfl⟩
      | some pg =>
        obtain ⟨free, inside, rfl⟩ := next
        exact ⟨_, apart.fresh free _, update_fresh free _, (join_eq_none.mp free).1, inside, rfl⟩
    | kfree pg =>
      exact ⟨_, apart.update allowed _, next.trans (update_join allowed apart _), rfl⟩
    | clear pg =>
      exact ⟨_, apart.update allowed _, next.trans (update_join allowed apart _), rfl⟩
    | load pg i =>
      obtain ⟨rfl, x, hx, hr⟩ := next
      exact ⟨h, apart, rfl, rfl, x, left allowed hx, hr⟩
    | read pg off n =>
      obtain ⟨rfl, x, hx, hr⟩ := next
      exact ⟨h, apart, rfl, rfl, x, left allowed hx, hr⟩
    | store pg i v =>
      obtain ⟨x, hx, rfl⟩ := next
      exact ⟨_, apart.update allowed _, update_join allowed apart _, x, left allowed hx, rfl⟩
    | write pg off bytes =>
      obtain ⟨x, hx, rfl⟩ := next
      exact ⟨_, apart.update allowed _, update_join allowed apart _, x, left allowed hx, rfl⟩

section Operations

variable {ram : Ram} {p : ℕ} {h : Heap Page} {pg : ℕ} {x : Page}

theorem follows_kalloc : (mem .kalloc).Follows (owned ram) p h fun r h' =>
    (r = none ∧ h' = h) ∨ ∃ pg, r = some pg ∧ h pg = none ∧ (ram.first ≤ pg ∧ pg < ram.last) ∧
      h' = update h pg (some (fill 5)) := by
  refine ⟨trivial, fun r h' next => ?_⟩
  cases r with
  | none => exact .inl ⟨rfl, next⟩
  | some pg => exact .inr ⟨pg, rfl, next⟩

theorem follows_kfree (own : h pg ≠ none) :
    (mem (.kfree pg)).Follows (owned ram) p h fun _ h' => h' = update h pg none :=
  ⟨own, fun _ _ next => next⟩

theorem follows_clear (own : h pg ≠ none) : (mem (.clear pg)).Follows (owned ram) p h
    fun _ h' => h' = update h pg (some (fill 0)) :=
  ⟨own, fun _ _ next => next⟩

theorem follows_load (own : h pg = some x) (i : ℕ) :
    (mem (.load pg i)).Follows (owned ram) p h fun r h' => h' = h ∧ r = pte x i := by
  refine ⟨ne_none_iff_exists'.mpr ⟨x, own⟩, ?_⟩
  rintro r h' ⟨rfl, y, hy, rfl⟩
  cases hy.symm.trans own
  exact ⟨rfl, rfl⟩

theorem follows_read (own : h pg = some x) (off n : ℕ) :
    (mem (.read pg off n)).Follows (owned ram) p h fun r h' => h' = h ∧ r = slice x off n := by
  refine ⟨ne_none_iff_exists'.mpr ⟨x, own⟩, ?_⟩
  rintro r h' ⟨rfl, y, hy, rfl⟩
  cases hy.symm.trans own
  exact ⟨rfl, rfl⟩

theorem follows_store (own : h pg = some x) (i : ℕ) (v : Pte) :
    (mem (.store pg i v)).Follows (owned ram) p h
      fun _ h' => h' = update h pg (some (setPte x i v)) := by
  refine ⟨ne_none_iff_exists'.mpr ⟨x, own⟩, ?_⟩
  rintro r h' ⟨y, hy, rfl⟩
  cases hy.symm.trans own
  rfl

theorem follows_write (own : h pg = some x) (off : ℕ) (bytes : List Byte) :
    (mem (.write pg off bytes)).Follows (owned ram) p h
      fun _ h' => h' = update h pg (some (splice x off bytes)) := by
  refine ⟨ne_none_iff_exists'.mpr ⟨x, own⟩, ?_⟩
  rintro r h' ⟨y, hy, rfl⟩
  cases hy.symm.trans own
  rfl

end Operations

/-! ## Indices -/

theorem px_two {va : ℕ} (hva : va < MAXVA) : px 2 va = va / PGSIZE / 512 / 512 := by
  simp only [px, PGSIZE, MAXVA] at hva ⊢
  omega

theorem px_one (va : ℕ) : px 1 va = va / PGSIZE / 512 % 512 := by
  simp only [px, PGSIZE]
  omega

theorem px_zero (va : ℕ) : px 0 va = va / PGSIZE % 512 := rfl

theorem index_lt {va : ℕ} (hva : va < MAXVA) : va / PGSIZE / 512 / 512 < 512 := by
  simp only [PGSIZE, MAXVA] at hva ⊢
  omega

section Walk

variable {ram : Ram} {p : ℕ} {h : Heap Page} {t : Table} {va v pg : ℕ} {alloc : Bool}

theorem Table.Repr.unique {h' : Heap Page} (rep : t.Repr ram h) (rep' : t.Repr ram h') : h' = h := by
  funext a
  refine ext fun x => ?_
  rw [rep.placed.cells, rep'.placed.cells]

/-- What `walk` finds for the virtual page `v`: the place of its entry in a table that has at most
grown. -/
def Walked (ram : Ram) (t : Table) (v : ℕ) (alloc : Bool) (r : Option (ℕ × ℕ)) (h : Heap Page) : Prop :=
  ∃ t', t.Grows t' ∧ t'.Repr ram h ∧ (alloc = false → t' = t) ∧
    match r with
    | none => alloc = false → t.low (v / 512) = none
    | some (pg, i) => t'.low (v / 512) = some pg ∧ i = v % 512

theorem walkFrom_one (rep : t.Repr ram h) {mid : ℕ}
    (below : t.mid (va / PGSIZE / 512 / 512) = some mid) :
    (walkFrom va alloc 1 mid).Follows (owned ram) p h (Walked ram t (va / PGSIZE) alloc) := by
  have small : va / PGSIZE / 512 % 512 < 512 := Nat.mod_lt _ (by decide)
  have entry : pte (t.content (.mid (va / PGSIZE / 512 / 512))) (px 1 va) =
      dir (t.low (va / PGSIZE / 512)) := by
    rw [px_one, content, pte_ofPtes _ small, Nat.div_add_mod]
  refine (follows_load (rep.get (n := .mid _) below) _).bind ?_
  rintro _ _ ⟨rfl, rfl⟩
  rw [entry]
  cases there : t.low (va / PGSIZE / 512) with
  | some pg =>
    have fits := rep.fits (n := .low _) there
    rw [flags_dir fits, pte2pa_dir fits, if_pos (by decide)]
    exact ⟨t, .refl, rep, fun _ => rfl, there, px_zero va⟩
  | none =>
    rw [dir, flags_zero, has_zero, if_neg Bool.false_ne_true]
    cases alloc with
    | false => exact ⟨t, .refl, rep, fun _ => rfl, fun _ => there⟩
    | true =>
      rw [if_pos rfl]
      refine follows_kalloc.bind ?_
      rintro _ _ (⟨rfl, rfl⟩ | ⟨pg, rfl, free, inside, rfl⟩)
      · exact ⟨t, .refl, rep, by rintro ⟨⟩, by rintro ⟨⟩⟩
      refine (follows_clear (by rw [update_self]; rintro ⟨⟩)).bind ?_
      rintro _ _ rfl
      have ne : mid ≠ pg := by
        rintro rfl
        exact rep.own (n := .mid _) below free
      rw [update_idem]
      refine (follows_store
        (by rw [update_of_ne ne]; exact rep.get (n := .mid _) below) _ _).bind ?_
      rintro _ _ rfl
      rw [px_one]
      exact ⟨_, .setLow there, rep.addLow below there free inside, by rintro ⟨⟩,
        update_self .., px_zero va⟩

theorem walkFrom_two (rep : t.Repr ram h) (hva : va < MAXVA) :
    (walkFrom va alloc 2 t.root).Follows (owned ram) p h (Walked ram t (va / PGSIZE) alloc) := by
  have small := index_lt hva
  have entry : pte (t.content .root) (px 2 va) = dir (t.mid (va / PGSIZE / 512 / 512)) := by
    rw [px_two hva, content, pte_ofPtes _ small]
  refine (follows_load (rep.get (n := .root) rfl) _).bind ?_
  rintro _ _ ⟨rfl, rfl⟩
  rw [entry]
  cases there : t.mid (va / PGSIZE / 512 / 512) with
  | some mid =>
    have fits := rep.fits (n := .mid _) there
    rw [flags_dir fits, pte2pa_dir fits, if_pos (by decide)]
    exact walkFrom_one rep there
  | none =>
    have no_low : t.low (va / PGSIZE / 512) = none := by
      by_contra low
      exact rep.wf.low_mid _ low there
    rw [dir, flags_zero, has_zero, if_neg Bool.false_ne_true]
    cases alloc with
    | false => exact ⟨t, .refl, rep, fun _ => rfl, fun _ => no_low⟩
    | true =>
      rw [if_pos rfl]
      refine follows_kalloc.bind ?_
      rintro _ _ (⟨rfl, rfl⟩ | ⟨mid, rfl, free, inside, rfl⟩)
      · exact ⟨t, .refl, rep, by rintro ⟨⟩, by rintro ⟨⟩⟩
      refine (follows_clear (by rw [update_self]; rintro ⟨⟩)).bind ?_
      rintro _ _ rfl
      have ne : t.root ≠ mid := by
        rintro rfl
        exact rep.own (n := .root) rfl free
      rw [update_idem]
      refine (follows_store
        (by rw [update_of_ne ne]; exact rep.get (n := .root) rfl) _ _).bind ?_
      rintro _ _ rfl
      rw [px_two hva]
      have grown : t.Grows (t.setMid (va / PGSIZE / 512 / 512) (some mid)) := .setMid there
      refine (walkFrom_one (rep.addMid small there free inside)
        (update_self ..)).mono ?_
      rintro r h' ⟨t', grows, rep', -, found⟩
      refine ⟨t', grown.trans grows, rep', by rintro ⟨⟩, ?_⟩
      cases r with
      | none => rintro ⟨⟩
      | some r => exact found

theorem walk_follows (rep : t.Repr ram h) (hva : va < MAXVA) :
    (walk t.root va alloc).Follows (owned ram) p h (Walked ram t (va / PGSIZE) alloc) := by
  rw [walk, if_neg (not_le.mpr hva)]
  exact walkFrom_two rep hva

theorem walk_find (rep : t.Repr ram h) (hva : va < MAXVA) :
    (walk t.root va false).Follows (owned ram) p h fun r h' =>
      h' = h ∧ r = (t.low (va / PGSIZE / 512)).map fun pg => (pg, va / PGSIZE % 512) := by
  refine (walk_follows rep hva).mono ?_
  rintro r h' ⟨t', -, rep', same, found⟩
  obtain rfl := same rfl
  refine ⟨rep.unique rep', ?_⟩
  cases r with
  | none => rw [found rfl, map_none]
  | some r =>
    obtain ⟨pg, i⟩ := r
    rw [found.1, found.2, map_some]

end Walk

/-! ## Mapping and unmapping -/

section Map

variable {ram : Ram} {p : ℕ} {h : Heap Page} {t : Table} {v pa : ℕ}

theorem page_lt_maxva (hv : v < MAXVA / PGSIZE) : v * PGSIZE < MAXVA := by
  simp only [MAXVA, PGSIZE] at hv ⊢
  omega

theorem mul_div_page (v : ℕ) : v * PGSIZE / PGSIZE = v := Nat.mul_div_cancel v (by decide)

theorem Table.Repr.entry {pg : ℕ} (there : t.low (v / 512) = some pg) (rep : t.Repr ram h) :
    h pg = some (t.content (.low (v / 512))) ∧ pte (t.content (.low (v / 512))) (v % 512) = t.leaf v := by
  refine ⟨rep.get (n := .low _) there, ?_⟩
  rw [content, pte_ofPtes _ (Nat.mod_lt _ (by decide)), Nat.div_add_mod]

theorem mappages_follows (rep : t.Repr ram h) (hv : v < MAXVA / PGSIZE)
    (unmapped : has (flags (t.leaf v)) PTE_V = false) (perm : Flags) :
    (mappages t.root (v * PGSIZE) PGSIZE pa perm).Follows (owned ram) p h fun r h' =>
      ∃ t', t.Grows t' ∧ ((r = false ∧ t'.Repr ram h') ∨
        (r = true ∧ (t'.setLeaf v (mkPte pa (perm ||| PTE_V))).Repr ram h')) := by
  have hva := page_lt_maxva hv
  have down : pgrounddown (v * PGSIZE) = v * PGSIZE := by rw [pgrounddown, mul_div_page]
  have last : pgrounddown ((v * PGSIZE + PGSIZE - 1) % 2 ^ 64) = v * PGSIZE := by
    simp only [pgrounddown, PGSIZE, MAXVA] at hva ⊢
    omega
  have one : (v * PGSIZE + 2 ^ 64 - v * PGSIZE) % 2 ^ 64 / PGSIZE = 0 := by
    rw [Nat.add_sub_cancel_left, Nat.mod_self, Nat.zero_div]
  have absent : t.user v = none := by
    by_contra there
    rw [rep.wf.user_valid v there] at unmapped
    cases unmapped
  rw [mappages, if_neg (by decide)]
  simp only [down, last, one]
  unfold mappagesFrom
  refine (walk_follows rep hva).bind ?_
  rintro r h' ⟨t', grows, rep', -, found⟩
  rw [mul_div_page] at found
  match r, found with
  | none, _ => exact ⟨t', grows, .inl ⟨rfl, rep'⟩⟩
  | some (pg, i), ⟨there, hi⟩ =>
    obtain ⟨own, entry⟩ := rep'.entry there
    subst hi
    refine (follows_load own _).bind ?_
    rintro _ _ ⟨rfl, rfl⟩
    rw [entry, grows.leaf, unmapped, if_neg Bool.false_ne_true]
    refine (follows_store own _ _).bind ?_
    rintro _ _ rfl
    refine ⟨t', grows, .inr ⟨rfl, rep'.setLeaf there fun user => ?_⟩⟩
    rw [grows.user] at user
    exact absurd absent user

theorem Table.Repr.low_of_valid (rep : t.Repr ram h) (valid : has (flags (t.leaf v)) PTE_V) :
    ∃ pg, t.low (v / 512) = some pg := by
  refine ne_none_iff_exists'.mp (rep.wf.leaf_low v ?_)
  intro zero
  rw [zero, flags_zero, has_zero] at valid
  cases valid

theorem unmapPage_keep (rep : t.Repr ram h) (hv : v < MAXVA / PGSIZE)
    (valid : has (flags (t.leaf v)) PTE_V) (leaf : flags (t.leaf v) ≠ PTE_V)
    (absent : t.user v = none) :
    (unmapPage t.root false (v * PGSIZE)).Follows (owned ram) p h
      fun _ h' => (t.setLeaf v 0).Repr ram h' := by
  obtain ⟨pg, there⟩ := rep.low_of_valid valid
  obtain ⟨own, entry⟩ := rep.entry there
  refine (walk_find rep (page_lt_maxva hv)).bind ?_
  rintro _ _ ⟨rfl, rfl⟩
  rw [mul_div_page, there]
  refine (follows_load own _).bind ?_
  rintro _ _ ⟨rfl, rfl⟩
  rw [entry, valid, if_neg (by decide), if_neg leaf, if_neg Bool.false_ne_true]
  refine (follows_store own _ _).mono ?_
  rintro _ _ rfl
  exact rep.setLeaf there fun user => absurd absent user

theorem unmapPage_free (rep : t.Repr ram h) (hv : v < MAXVA / PGSIZE)
    (leaf : flags (t.leaf v) ≠ PTE_V) (user : t.user v ≠ none) :
    (unmapPage t.root true (v * PGSIZE)).Follows (owned ram) p h
      fun _ h' => ((t.setUser v none).setLeaf v 0).Repr ram h' := by
  have valid := rep.wf.user_valid v user
  obtain ⟨pg, there⟩ := rep.low_of_valid valid
  obtain ⟨own, entry⟩ := rep.entry there
  obtain ⟨x, hx⟩ := ne_none_iff_exists'.mp user
  have at' : t.place (.user v) = some (pte2pa (t.leaf v)) := by rw [place, hx, map_some]
  have ne : pg ≠ pte2pa (t.leaf v) := by
    rintro rfl
    have := rep.placed.inj _ _ _ at' (show t.place (.low (v / 512)) = _ from there)
    cases this
  refine (walk_find rep (page_lt_maxva hv)).bind ?_
  rintro _ _ ⟨rfl, rfl⟩
  rw [mul_div_page, there]
  refine (follows_load own _).bind ?_
  rintro _ _ ⟨rfl, rfl⟩
  rw [entry, valid, if_neg (by decide), if_neg leaf, if_pos rfl]
  refine (follows_kfree (rep.own at')).bind ?_
  rintro _ _ rfl
  refine (follows_store (by rwa [update_of_ne ne]) _ _).mono ?_
  rintro _ _ rfl
  exact rep.dropUser user there

theorem Table.dropRange_zero (t : Table) (a : ℕ) : t.dropRange a 0 = t := by
  have none_in (v : ℕ) : ¬(a ≤ v ∧ v < a + 0) := by omega
  simp only [dropRange, none_in, if_false]

theorem Table.dropRange_succ (t : Table) (a n : ℕ) :
    ((t.dropRange a n).setUser (a + n) none).setLeaf (a + n) 0 = t.dropRange a (n + 1) := by
  have extend (v : ℕ) : (a ≤ v ∧ v < a + (n + 1)) ↔ (v = a + n ∨ a ≤ v ∧ v < a + n) := by omega
  simp only [setLeaf, setUser, dropRange, mk.injEq, true_and]
  constructor
  · funext v
    by_cases e : v = a + n
    · simp [e]
    · simp only [update_of_ne e, extend, e, false_or]
  · funext v
    by_cases e : v = a + n
    · simp [e]
    · simp only [update_of_ne e, extend, e, false_or]

theorem uvmunmap_free (rep : t.Repr ram h) {a n : ℕ} (hn : a + n ≤ MAXVA / PGSIZE)
    (mapped : ∀ v, a ≤ v → v < a + n → t.user v ≠ none ∧ flags (t.leaf v) ≠ PTE_V) :
    (uvmunmap t.root (a * PGSIZE) n true).Follows (owned ram) p h
      fun _ h' => (t.dropRange a n).Repr ram h' := by
  have aligned : a * PGSIZE % PGSIZE = 0 := Nat.mul_mod_left a PGSIZE
  have count : ((a * PGSIZE + n * PGSIZE) % 2 ^ 64 - a * PGSIZE) / PGSIZE = n := by
    simp only [MAXVA, PGSIZE] at hn ⊢
    omega
  rw [uvmunmap, if_neg (by rw [aligned]; decide)]
  simp only [count]
  have loop := Prog.Follows.loop (P := owned ram) (p := p)
    (f := fun i => unmapPage t.root true (a * PGSIZE + i * PGSIZE))
    (J := fun i h' => (t.dropRange a i).Repr ram h') n ?_
    (show (t.dropRange a 0).Repr ram h by rwa [dropRange_zero])
  · rwa [zero_add] at loop
  intro i h' _ upper rep'
  have hi := mapped (a + i) (by omega) (by omega)
  have kept : ¬(a ≤ a + i ∧ a + i < a + i) := by omega
  have leaf : (t.dropRange a i).leaf (a + i) = t.leaf (a + i) := if_neg kept
  have user : (t.dropRange a i).user (a + i) = t.user (a + i) := if_neg kept
  have step := unmapPage_free (p := p) (v := a + i) rep' (by omega) (by rw [leaf]; exact hi.2)
    (by rw [user]; exact hi.1)
  rw [dropRange_succ, add_mul] at step
  exact step

theorem uvmunmap_keep (rep : t.Repr ram h) (hv : v < MAXVA / PGSIZE)
    (valid : has (flags (t.leaf v)) PTE_V) (leaf : flags (t.leaf v) ≠ PTE_V)
    (absent : t.user v = none) :
    (uvmunmap t.root (v * PGSIZE) 1 false).Follows (owned ram) p h
      fun _ h' => (t.setLeaf v 0).Repr ram h' := by
  have aligned : v * PGSIZE % PGSIZE = 0 := Nat.mul_mod_left v PGSIZE
  have count : ((v * PGSIZE + 1 * PGSIZE) % 2 ^ 64 - v * PGSIZE) / PGSIZE = 1 := by
    simp only [MAXVA, PGSIZE] at hv ⊢
    omega
  rw [uvmunmap, if_neg (by rw [aligned]; decide)]
  simp only [count, Prog.loop, zero_mul, add_zero]
  refine (unmapPage_keep rep hv valid leaf absent).bind ?_
  intro _ _ done
  exact done

theorem uvmclear_follows (rep : t.Repr ram h) (hv : v < MAXVA / PGSIZE)
    (valid : has (flags (t.leaf v)) PTE_V) :
    (uvmclear t.root (v * PGSIZE)).Follows (owned ram) p h fun _ h' =>
      (t.setLeaf v (t.leaf v &&& ~~~(PTE_U.setWidth 64))).Repr ram h' := by
  obtain ⟨pg, there⟩ := rep.low_of_valid valid
  obtain ⟨own, entry⟩ := rep.entry there
  refine (walk_find rep (page_lt_maxva hv)).bind ?_
  rintro _ _ ⟨rfl, rfl⟩
  rw [mul_div_page, there]
  refine (follows_load own _).bind ?_
  rintro _ _ ⟨rfl, rfl⟩
  refine (follows_store own _ _).mono ?_
  rintro _ _ rfl
  rw [entry]
  refine rep.setLeaf there fun _ => ⟨?_, pte2pa_clearU _⟩
  rw [flags_clearU, has_clearU _ (by decide)]
  exact valid

end Map

/-! ## Freeing page-table pages -/

section Free

variable {ram : Ram} {p : ℕ} {h : Heap Page} {t : Table} {pg i m : ℕ}

theorem freewalk_empty {f : ℕ → Pte} (own : h pg = some (ofPtes f)) (zero : ∀ i < 512, f i = 0)
    (depth : ℕ) : (freewalk (depth + 1) pg).Follows (owned ram) p h
      fun _ h' => h' = update h pg none := by
  rw [freewalk]
  refine (Prog.Follows.loop (J := fun _ h' => h' = h) 512 ?_ rfl).bind ?_
  · rintro i _ _ hi rfl
    refine (follows_load own _).bind ?_
    rintro _ _ ⟨rfl, rfl⟩
    rw [pte_ofPtes _ (by omega), zero i (by omega)]
    exact rfl
  · rintro _ _ rfl
    exact follows_kfree (by rw [own]; nofun)

theorem freewalk_mid (rep : t.Repr ram h) (there : t.mid i = some pg) (clear : ∀ v, t.leaf v = 0) :
    (freewalk 2 pg).Follows (owned ram) p h fun _ h' =>
      ∃ (t' : Table) (h₁ : Heap Page), t'.Repr ram h₁ ∧
      h' = update h₁ pg none ∧ t'.root = t.root ∧ t'.mid = t.mid ∧ t'.leaf = t.leaf ∧
      t'.user = t.user ∧ ∀ j < 512, t'.low (512 * i + j) = none := by
  rw [freewalk]
  let J (n : ℕ) (h' : Heap Page) : Prop := ∃ t' : Table, t'.Repr ram h' ∧ t'.root = t.root ∧
    t'.mid = t.mid ∧ t'.leaf = t.leaf ∧ t'.user = t.user ∧ ∀ j < n, t'.low (512 * i + j) = none
  refine (Prog.Follows.loop (J := J) 512 ?_
    ⟨t, rep, rfl, rfl, rfl, rfl, fun _ lt => absurd lt (Nat.not_lt_zero _)⟩).bind ?_
  · rintro j h' _ hj ⟨t', rep', root, mid, leaf, user, done⟩
    have small : j < 512 := by omega
    have div : (512 * i + j) / 512 = i := by omega
    have mod : (512 * i + j) % 512 = j := by omega
    have below : t'.mid ((512 * i + j) / 512) = some pg := by rw [div, mid, there]
    have own := rep'.get (n := .mid _) below
    have entry : pte (t'.content (.mid ((512 * i + j) / 512))) j = dir (t'.low (512 * i + j)) := by
      rw [div, content, pte_ofPtes _ small]
    refine (follows_load own _).bind ?_
    rintro _ _ ⟨rfl, rfl⟩
    rw [entry]
    cases low : t'.low (512 * i + j) with
    | none =>
      refine ⟨t', rep', root, mid, leaf, user, fun j' hj' => ?_⟩
      rcases Nat.lt_succ_iff_lt_or_eq.mp hj' with lt | rfl
      · exact done j' lt
      · exact low
    | some lowpg =>
      have fits := rep'.fits (n := .low _) low
      have ne : pg ≠ lowpg := by
        rintro rfl
        have := rep'.placed.inj _ _ _ (show t'.place (.mid _) = _ from below)
          (show t'.place (.low _) = _ from low)
        cases this
      have empty (k : ℕ) : t'.leaf k = 0 := by rw [leaf, clear]
      rw [flags_dir fits, pte2pa_dir fits, if_pos (by decide)]
      refine (freewalk_empty (rep'.get (n := .low _) low) (fun k _ => empty _) 0).bind ?_
      rintro _ _ rfl
      refine (follows_store (by rwa [update_of_ne ne]) _ _).mono ?_
      rintro _ _ rfl
      have dropped := rep'.dropLow below low fun k _ => empty _
      rw [mod] at dropped
      refine ⟨_, dropped, root, mid, leaf, user, fun j' hj' => ?_⟩
      by_cases e : j' = j
      · rw [e, setLow_low, update_self]
      · rw [setLow_low, update_of_ne (by omega)]
        exact done j' (by omega)
  · rintro _ h' ⟨t', rep', root, mid, leaf, user, done⟩
    refine (follows_kfree (rep'.own (n := .mid i) (by rw [place, mid, there]))).mono ?_
    rintro _ _ rfl
    exact ⟨t', h', rep', rfl, root, mid, leaf, user, done⟩

theorem freewalk_follows (rep : t.Repr ram h) (clear : ∀ v, t.leaf v = 0)
    (no_user : ∀ v, t.user v = none) :
    (freewalk 3 t.root).Follows (owned ram) p h fun _ h' => h' = empty := by
  rw [freewalk]
  let J (n : ℕ) (h' : Heap Page) : Prop := ∃ t' : Table, t'.Repr ram h' ∧ t'.root = t.root ∧
    t'.leaf = t.leaf ∧ t'.user = t.user ∧ ∀ i < n, t'.mid i = none
  refine (Prog.Follows.loop (J := J) 512 ?_
    ⟨t, rep, rfl, rfl, rfl, fun _ lt => absurd lt (Nat.not_lt_zero _)⟩).bind ?_
  · rintro i h' _ hi ⟨t', rep', root, leaf, user, done⟩
    have small : i < 512 := by omega
    have own := rep'.get (n := .root) rfl
    rw [root] at own
    have entry : pte (t'.content .root) i = dir (t'.mid i) := by
      rw [content, pte_ofPtes _ small]
    refine (follows_load own _).bind ?_
    rintro _ _ ⟨rfl, rfl⟩
    rw [entry]
    cases mid : t'.mid i with
    | none =>
      refine ⟨t', rep', root, leaf, user, fun i' hi' => ?_⟩
      rcases Nat.lt_succ_iff_lt_or_eq.mp hi' with lt | rfl
      · exact done i' lt
      · exact mid
    | some midpg =>
      have fits := rep'.fits (n := .mid _) mid
      rw [flags_dir fits, pte2pa_dir fits, if_pos (by decide)]
      refine (freewalk_mid rep' mid fun k => by rw [leaf, clear]).bind ?_
      rintro _ _ ⟨t₁, h₁, rep₁, rfl, root₁, mid₁, leaf₁, user₁, empty⟩
      have there : t₁.mid i = some midpg := by rw [mid₁, mid]
      have ne : t₁.root ≠ midpg := by
        rintro rfl
        have := rep₁.placed.inj _ _ _ (show t₁.place (.mid _) = _ from there)
          (show t₁.place .root = _ from rfl)
        cases this
      have top : t.root = t₁.root := by rw [root₁, root]
      refine (follows_store (by
        rw [top, update_of_ne ne]
        exact rep₁.get (n := .root) rfl) _ _).mono ?_
      rintro _ _ rfl
      rw [top]
      refine ⟨_, rep₁.dropMid there empty, root₁.trans root, leaf₁.trans leaf, user₁.trans user,
        fun i' hi' => ?_⟩
      by_cases e : i' = i
      · rw [e, setMid_mid, update_self]
      · rw [setMid_mid, update_of_ne e, mid₁]
        exact done i' (by omega)
  · rintro _ h' ⟨t', rep', root, leaf, user, done⟩
    have own := rep'.own (n := .root) rfl
    rw [root] at own
    refine (follows_kfree own).mono ?_
    rintro _ _ rfl
    have no_mid (i : ℕ) : t'.mid i = none := by
      by_contra there
      exact there (done i (rep'.wf.mid_lt i there))
    funext a
    by_cases e : a = t.root
    · rw [e, update_self]
      rfl
    · rw [update_of_ne e]
      by_contra there
      obtain ⟨n, hn⟩ := rep'.placed.own_iff.mp there
      cases n with
      | root => exact e ((some.inj hn).symm.trans root)
      | mid i => exact absurd (hn.symm.trans (no_mid i)) (by rintro ⟨⟩)
      | low m => exact rep'.wf.low_mid m (by rw [show t'.low m = _ from hn]; rintro ⟨⟩) (no_mid _)
      | user v =>
        rw [place, user, no_user] at hn
        cases hn

end Free

end Xv6.Vm
