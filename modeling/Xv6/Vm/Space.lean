import Xv6.Vm.Walk

/-!
# Address spaces

The shape of the page table of a process, and what the functions that grow, shrink, copy and free an
address space do to it.
-/

namespace Xv6.Vm

open Function Heap Table

open Assertion (Star)

/-- The number of pages for `sz` bytes. -/
def pages (sz : ℕ) : ℕ := (sz + PGSIZE - 1) / PGSIZE

def kernelPtes (ram : Ram) (trapframe v : ℕ) : Pte :=
  if v = TRAMPOLINE / PGSIZE then mkPte ram.trampoline (PTE_R ||| PTE_X ||| PTE_V)
  else if v = TRAPFRAME / PGSIZE then mkPte trapframe (PTE_R ||| PTE_W ||| PTE_V)
  else 0

namespace Table

/-- The first `n` virtual pages are user pages whose flags satisfy `F`, and the other entries are
those of `rest`. -/
structure Maps (t : Table) (n : ℕ) (F : Flags → Prop) (rest : ℕ → Pte) : Prop where
  user : ∀ v < n, t.user v ≠ none
  readable : ∀ v < n, has (flags (t.leaf v)) PTE_R
  flags : ∀ v < n, F (flags (t.leaf v))
  beyond : ∀ v, n ≤ v → t.user v = none ∧ t.leaf v = rest v
  rest_zero : ∀ v < TRAPFRAME / PGSIZE, rest v = 0

/-- The two tables have the same entries and user pages. -/
structure Same (t t' : Table) : Prop where
  root : t'.root = t.root
  leaf : ∀ v, t'.leaf v = t.leaf v
  user : ∀ v, t'.user v = t.user v

/-- The pages from `n` to `n + k - 1` have been added: they are zero and have the flags `f`. -/
structure Extends (t t' : Table) (n k : ℕ) (f : Flags) : Prop where
  root : t'.root = t.root
  others : ∀ v, v < n ∨ n + k ≤ v → t'.leaf v = t.leaf v ∧ t'.user v = t.user v
  fresh : ∀ v, n ≤ v → v < n + k →
    t'.user v = some (fill 0) ∧ Vm.flags (t'.leaf v) = f

variable {t t' : Table} {ram : Ram} {h : Heap Page} {n k : ℕ} {F : Flags → Prop} {rest : ℕ → Pte}
  {f : Flags}

theorem Grows.same (grows : t.Grows t') : t.Same t' :=
  ⟨grows.root, fun v => by rw [grows.leaf], fun v => by rw [grows.user]⟩

theorem Same.refl : t.Same t := ⟨rfl, fun _ => rfl, fun _ => rfl⟩

theorem Same.extends (same : t.Same t') (n : ℕ) (f : Flags) : t.Extends t' n 0 f where
  root := same.root
  others v _ := ⟨same.leaf v, same.user v⟩
  fresh v lower upper := by omega

theorem Maps.same (maps : t.Maps n F rest) (same : t.Same t') : t'.Maps n F rest where
  user v hv := by rw [same.user]; exact maps.user v hv
  readable v hv := by rw [same.leaf]; exact maps.readable v hv
  flags v hv := by rw [same.leaf]; exact maps.flags v hv
  beyond v hv := by rw [same.user, same.leaf]; exact maps.beyond v hv
  rest_zero := maps.rest_zero

/-- The first `k` pages are copies of those of the table `old`; the other entries are those of `t`. -/
structure Copied (old t t' : Table) (k : ℕ) : Prop where
  root : t'.root = t.root
  copied : ∀ v < k, t'.user v = old.user v ∧ Vm.flags (t'.leaf v) = Vm.flags (old.leaf v)
  others : ∀ v, k ≤ v → t'.leaf v = t.leaf v ∧ t'.user v = t.user v

/-- There are fewer user pages than virtual pages below the trapframe, since there is not enough
physical memory. -/
theorem Maps.lt (maps : t.Maps n F rest) (rep : t.Repr ram h) : n < TRAPFRAME / PGSIZE := by
  have count := rep.placed.count_le (k := n) rep.within Node.user
    (fun i j _ _ same => Node.user.inj same) ?_
  · exact lt_of_le_of_lt count ram.few
  · intro v hv none
    rw [place, Option.map_eq_none_iff] at none
    exact maps.user v hv none

theorem Maps.not_dir (maps : t.Maps n F rest) {v : ℕ} (hv : v < n) : Vm.flags (t.leaf v) ≠ PTE_V := by
  intro same
  have readable := maps.readable v hv
  rw [same] at readable
  exact absurd readable (by decide)

theorem Maps.extends (maps : t.Maps n F rest) (ext : t.Extends t' n k f) (hf : F f)
    (readable : has f PTE_R) : t'.Maps (n + k) F rest where
  user v hv := by
    by_cases old : v < n
    · rw [(ext.others v (.inl old)).2]
      exact maps.user v old
    · rw [(ext.fresh v (by omega) hv).1]
      nofun
  readable v hv := by
    by_cases old : v < n
    · rw [(ext.others v (.inl old)).1]
      exact maps.readable v old
    · rw [(ext.fresh v (by omega) hv).2]
      exact readable
  flags v hv := by
    by_cases old : v < n
    · rw [(ext.others v (.inl old)).1]
      exact maps.flags v old
    · rw [(ext.fresh v (by omega) hv).2]
      exact hf
  beyond v hv := by
    rw [(ext.others v (.inr hv)).1, (ext.others v (.inr hv)).2]
    exact maps.beyond v (by omega)
  rest_zero := maps.rest_zero

theorem Maps.dropRange (maps : t.Maps n F rest) (few : n ≤ TRAPFRAME / PGSIZE) {a : ℕ}
    (ha : a ≤ n) : (t.dropRange a (n - a)).Maps a F rest where
  user v hv := by
    rw [dropRange_user, if_neg (by omega)]
    exact maps.user v (by omega)
  readable v hv := by
    rw [dropRange_leaf, if_neg (by omega)]
    exact maps.readable v (by omega)
  flags v hv := by
    rw [dropRange_leaf, if_neg (by omega)]
    exact maps.flags v (by omega)
  beyond v hv := by
    by_cases old : v < n
    · rw [dropRange_user, dropRange_leaf, if_pos (by omega), if_pos (by omega)]
      exact ⟨rfl, (maps.rest_zero v (by omega)).symm⟩
    · rw [dropRange_user, dropRange_leaf, if_neg (by omega), if_neg (by omega)]
      exact maps.beyond v (by omega)
  rest_zero := maps.rest_zero

end Table

/-! ## Shrinking -/

theorem ofInt_of_lt {n : ℕ} (small : n < 2 ^ 31) : ofInt n = n := by
  rw [ofInt, BitVec.signExtend_eq_setWidth_of_msb_false]
  · simp only [BitVec.toNat_setWidth, BitVec.toNat_ofNat]
    omega
  · rw [BitVec.msb_eq_decide, decide_eq_false]
    simp only [BitVec.toNat_ofNat]
    omega

theorem pgroundup_eq {sz : ℕ} (small : pages sz ≤ TRAPFRAME / PGSIZE) :
    pgroundup sz = pages sz * PGSIZE := by
  simp only [pages, pgroundup, TRAPFRAME, TRAMPOLINE, MAXVA, PGSIZE] at small ⊢
  omega

theorem pages_mul (n : ℕ) : pages (n * PGSIZE) = n := by
  simp only [pages, PGSIZE]
  omega

theorem pages_mono {a b : ℕ} (le : a ≤ b) : pages a ≤ pages b := by
  simp only [pages, PGSIZE]
  omega

section

variable {ram : Ram} {p n oldsz newsz k : ℕ} {h : Heap Page} {t t' : Table} {F : Flags → Prop}
  {rest : ℕ → Pte}

theorem uvmdealloc_follows (rep : t.Repr ram h) (maps : t.Maps n F rest) (hold : pages oldsz = n) :
    (uvmdealloc t.root oldsz newsz).Follows (owned ram) p h fun r h' =>
      r = min oldsz newsz ∧ (t.dropRange (pages r) (n - pages r)).Repr ram h' := by
  have lt := maps.lt rep
  have drop_none : t.dropRange n (n - n) = t := by rw [Nat.sub_self, dropRange_zero]
  rw [uvmdealloc]
  by_cases grow : oldsz ≤ newsz
  · rw [if_pos grow]
    refine ⟨(min_eq_left grow).symm, ?_⟩
    rwa [hold, drop_none]
  · rw [if_neg grow]
    have le : pages newsz ≤ n := hold ▸ pages_mono (by omega)
    have old : pgroundup oldsz = _ := pgroundup_eq (by omega)
    have new : pgroundup newsz = _ := pgroundup_eq (by omega)
    rw [hold] at old
    rw [old, new]
    by_cases less : pages newsz < n
    · rw [if_pos (Nat.mul_lt_mul_of_pos_right less (by decide))]
      have count : (n * PGSIZE - pages newsz * PGSIZE) / PGSIZE = n - pages newsz := by
        rw [← Nat.sub_mul, Nat.mul_div_cancel _ (by decide)]
      simp only [count]
      rw [ofInt_of_lt (by simp only [TRAPFRAME, TRAMPOLINE, MAXVA, PGSIZE] at lt; omega)]
      refine (uvmunmap_free rep ?_ ?_).bind ?_
      · simp only [TRAPFRAME, TRAMPOLINE, MAXVA, PGSIZE] at lt ⊢
        omega
      · intro v _ hv
        exact ⟨maps.user v (by omega), maps.not_dir (by omega)⟩
      · intro _ h' rep'
        exact ⟨(min_eq_right (by omega)).symm, rep'⟩
    · have same : pages newsz = n := by omega
      rw [same, if_neg (lt_irrefl _)]
      refine ⟨(min_eq_right (by omega)).symm, ?_⟩
      rwa [same, drop_none]

/-! ## Growing -/

theorem Table.Extends.snoc {t' t₁ : Table} {k pa : ℕ} {f : Flags} (ext : t.Extends t' n k f)
    (grows : t'.Grows t₁) (fits : pa < 2 ^ 52) :
    t.Extends ((t₁.setLeaf (n + k) (mkPte pa f)).setUser (n + k) (some (fill 0))) n (k + 1) f where
  root := grows.root.trans ext.root
  others v hv := by
    have ne : v ≠ n + k := by omega
    rw [setUser_leaf, setUser_user, setLeaf_leaf, update_of_ne ne,
      update_of_ne ne, setLeaf_user, grows.leaf, grows.user]
    exact ext.others v (by omega)
  fresh v lower upper := by
    by_cases e : v = n + k
    · rw [setUser_leaf, setUser_user, setLeaf_leaf, e, update_self, update_self]
      exact ⟨rfl, flags_mkPte fits f⟩
    · rw [setUser_leaf, setUser_user, setLeaf_leaf, update_of_ne e,
        update_of_ne e, setLeaf_user, grows.leaf, grows.user]
      exact ext.fresh v lower (by omega)

theorem mappages_user (rep : t.Repr ram h) {v pg : ℕ} {x : Page} (free : h pg = none)
    (inside : ram.first ≤ pg ∧ pg < ram.last) (hv : v < MAXVA / PGSIZE)
    (unmapped : has (flags (t.leaf v)) PTE_V = false) (perm : Flags) :
    (mappages t.root (v * PGSIZE) PGSIZE pg perm).Follows (owned ram) p
      (update h pg (some x)) fun r h' => ∃ t', t.Grows t' ∧
        ((r = false ∧ ∃ h₁, t'.Repr ram h₁ ∧ h₁ pg = none ∧ h' = update h₁ pg (some x)) ∨
          (r = true ∧
            ((t'.setLeaf v (mkPte pg (perm ||| PTE_V))).setUser v (some x)).Repr ram h')) := by
  have fits : pg < 2 ^ 52 := lt_of_lt_of_le inside.2 ram.last_le
  rw [← join_single free]
  refine ((mappages_follows rep hv unmapped perm).frame (owned_local ram)
    (apart_single.mpr free)).mono ?_
  rintro r _ ⟨h₁, _, apart, rfl, ⟨t', grows, post⟩, rfl⟩
  have free₁ := apart_single.mp apart
  rw [join_single free₁]
  refine ⟨t', grows, ?_⟩
  rcases post with ⟨rfl, rep₁⟩ | ⟨rfl, rep₁⟩
  · exact .inl ⟨rfl, h₁, rep₁, free₁, rfl⟩
  · refine .inr ⟨rfl, ?_⟩
    have leaf : (t'.setLeaf v (mkPte pg (perm ||| PTE_V))).leaf v = mkPte pg (perm ||| PTE_V) :=
      update_self ..
    have added := rep₁.changeUser (v := v) (by rw [leaf, flags_mkPte fits, has_or]; simp [has])
    rw [leaf, pte2pa_mkPte fits] at added
    exact added (.inr free₁) inside x

theorem uvmalloc_undo {f : Flags} (rep : t'.Repr ram h)
    (maps : t.Maps n F rest) (maps' : t'.Maps (n + k) F rest) (ext : t.Extends t' n k f) :
    (uvmdealloc t.root ((n + k) * PGSIZE) (n * PGSIZE)).Follows (owned ram) p h fun _ h' =>
      ∃ t'', t''.Repr ram h' ∧ t.Same t'' := by
  rw [← ext.root]
  refine (uvmdealloc_follows rep maps' (pages_mul _)).mono ?_
  rintro r h' ⟨hr, rep'⟩
  rw [Nat.mul_min_mul_right, min_eq_right (Nat.le_add_right n k)] at hr
  subst hr
  rw [pages_mul, Nat.add_sub_cancel_left] at rep'
  have few := maps'.lt rep
  refine ⟨_, rep', ⟨ext.root, fun v => ?_, fun v => ?_⟩⟩
  · rw [dropRange_leaf]
    split_ifs with inside
    · rw [(maps.beyond v inside.1).2, maps.rest_zero v (by omega)]
    · exact (ext.others v (by omega)).1
  · rw [dropRange_user]
    split_ifs with inside
    · exact (maps.beyond v inside.1).1.symm
    · exact (ext.others v (by omega)).2

theorem uvmallocFrom_follows (maps : t.Maps n F rest) {xperm : Flags}
    (hF : F (PTE_R ||| PTE_U ||| xperm ||| PTE_V)) (j : ℕ)
    (rep : t'.Repr ram h) (ext : t.Extends t' n k (PTE_R ||| PTE_U ||| xperm ||| PTE_V)) :
    (uvmallocFrom t.root (n * PGSIZE) newsz xperm j ((n + k) * PGSIZE)).Follows (owned ram) p h
      fun r h' => ∃ t'', t''.Repr ram h' ∧ ((r = 0 ∧ t.Same t'') ∨
        (r = newsz ∧ t.Extends t'' n (k + j) (PTE_R ||| PTE_U ||| xperm ||| PTE_V))) := by
  induction j generalizing h t' k with
  | zero => exact ⟨t', rep, .inr ⟨rfl, ext⟩⟩
  | succ j ih =>
    have maps' := maps.extends ext hF (by rw [has_or, has_or, has_or]; rfl)
    have few := maps'.lt rep
    rw [uvmallocFrom]
    refine follows_kalloc.bind ?_
    rintro _ _ (⟨rfl, rfl⟩ | ⟨pg, rfl, free, inside, rfl⟩)
    · refine (uvmalloc_undo rep maps maps' ext).bind ?_
      rintro _ _ ⟨t'', rep'', same⟩
      exact ⟨t'', rep'', .inl ⟨rfl, same⟩⟩
    refine (follows_clear (by rw [update_self]; nofun)).bind ?_
    rintro _ _ rfl
    rw [update_idem, ← ext.root]
    have unmapped : has (flags (t'.leaf (n + k))) PTE_V = false := by
      rw [(maps'.beyond _ (le_refl _)).2, maps.rest_zero _ few]
      rfl
    refine (mappages_user rep free inside ?_ unmapped _).bind ?_
    · simp only [TRAPFRAME, TRAMPOLINE, MAXVA, PGSIZE] at few ⊢
      omega
    rintro _ _ ⟨t₁, grows, ⟨rfl, h₁, rep₁, free₁, rfl⟩ | ⟨rfl, rep₁⟩⟩
    · rw [if_neg Bool.false_ne_true]
      refine (follows_kfree (by rw [update_self]; nofun)).bind ?_
      rintro _ _ rfl
      rw [update_idem, ← free₁, update_eq_self, ext.root]
      have ext₁ : t.Extends t₁ n k (PTE_R ||| PTE_U ||| xperm ||| PTE_V) :=
        ⟨grows.root.trans ext.root, fun v hv => by rw [grows.leaf, grows.user]; exact ext.others v hv,
          fun v lo hi => by rw [grows.leaf, grows.user]; exact ext.fresh v lo hi⟩
      refine (uvmalloc_undo rep₁ maps (maps'.same grows.same) ext₁).bind ?_
      rintro _ _ ⟨t'', rep'', same⟩
      exact ⟨t'', rep'', .inl ⟨rfl, same⟩⟩
    · rw [if_pos rfl, ext.root, ← Nat.succ_mul]
      have step := ih rep₁ (ext.snoc grows (lt_of_lt_of_le inside.2 ram.last_le))
      rwa [add_right_comm, add_assoc] at step

theorem uvmalloc_follows (rep : t.Repr ram h) (maps : t.Maps n F rest) (hold : pages oldsz = n)
    {xperm : Flags} (hF : F (PTE_R ||| PTE_U ||| xperm ||| PTE_V)) :
    (uvmalloc t.root oldsz newsz xperm).Follows (owned ram) p h fun r h' =>
      ∃ t', t'.Repr ram h' ∧ ((r = 0 ∧ t.Same t') ∨ (r = max oldsz newsz ∧
        t.Extends t' n (pages r - n) (PTE_R ||| PTE_U ||| xperm ||| PTE_V))) := by
  have lt := maps.lt rep
  rw [uvmalloc]
  by_cases shrink : newsz < oldsz
  · rw [if_pos shrink]
    refine ⟨t, rep, .inr ⟨(max_eq_left (by omega)).symm, ?_⟩⟩
    rw [hold, Nat.sub_self]
    exact Table.Same.refl.extends n _
  · rw [if_neg shrink, pgroundup_eq (by omega), hold]
    have count : (newsz - n * PGSIZE + PGSIZE - 1) / PGSIZE = pages newsz - n := by
      simp only [pages, PGSIZE] at hold ⊢
      omega
    simp only [count]
    refine (uvmallocFrom_follows maps hF _ rep (Table.Same.refl.extends n _)).mono ?_
    rintro r h' ⟨t', rep', fail | ⟨rfl, ext⟩⟩
    · exact ⟨t', rep', .inl fail⟩
    · rw [zero_add] at ext
      exact ⟨t', rep', .inr ⟨(max_eq_right (by omega)).symm, ext⟩⟩

/-! ## Freeing -/

theorem uvmfree_follows (rep : t.Repr ram h) (maps : t.Maps n F fun _ => 0) {sz : ℕ}
    (hsz : pages sz = n) : (uvmfree t.root sz).Follows (owned ram) p h fun _ h' => h' = empty := by
  have lt := maps.lt rep
  rw [uvmfree]
  by_cases pos : 0 < sz
  · rw [if_pos pos, pgroundup_eq (by omega), hsz, mul_div_page]
    have unmap := uvmunmap_free (p := p) (a := 0) (n := n) rep
      (by simp only [TRAPFRAME, TRAMPOLINE, MAXVA, PGSIZE] at lt ⊢; omega)
      (fun v _ hv => ⟨maps.user v (by omega), maps.not_dir (by omega)⟩)
    rw [zero_mul] at unmap
    refine unmap.bind fun _ h' rep' => ?_
    have empty := maps.dropRange (by omega) zero_le
    rw [Nat.sub_zero] at empty
    exact freewalk_follows (t := t.dropRange 0 n) rep' (fun v => (empty.beyond v zero_le).2)
      fun v => (empty.beyond v zero_le).1
  · have none : n = 0 := by
      rw [← hsz, show sz = 0 by omega]
      rfl
    subst none
    rw [if_neg pos]
    exact freewalk_follows rep (fun v => (maps.beyond v zero_le).2)
      fun v => (maps.beyond v zero_le).1

theorem Table.Maps.setLeaf (maps : t.Maps n F rest) {v : ℕ} (hv : n ≤ v) (x : Pte)
    (above : TRAPFRAME / PGSIZE ≤ v) : (t.setLeaf v x).Maps n F (update rest v x) where
  user := maps.user
  readable w hw := by
    rw [setLeaf_leaf, update_of_ne (by omega)]
    exact maps.readable w hw
  flags w hw := by
    rw [setLeaf_leaf, update_of_ne (by omega)]
    exact maps.flags w hw
  beyond w hw := by
    refine ⟨(maps.beyond w hw).1, ?_⟩
    by_cases e : w = v
    · rw [setLeaf_leaf, e, update_self, update_self]
    · rw [setLeaf_leaf, update_of_ne e, update_of_ne e]
      exact (maps.beyond w hw).2
  rest_zero w hw := by
    rw [update_of_ne (by omega)]
    exact maps.rest_zero w hw

theorem uvmunmap_kernel (rep : t.Repr ram h) (maps : t.Maps n F rest) {v : ℕ}
    (above : TRAPFRAME / PGSIZE ≤ v) (hv : v < MAXVA / PGSIZE)
    (valid : has (flags (rest v)) PTE_V) (leaf : flags (rest v) ≠ PTE_V) :
    (uvmunmap t.root (v * PGSIZE) 1 false).Follows (owned ram) p h fun _ h' =>
      ∃ t' : Table, t'.root = t.root ∧ t'.Repr ram h' ∧
        t'.Maps n F (update rest v 0) := by
  have lt := maps.lt rep
  obtain ⟨absent, entry⟩ := maps.beyond v (by omega)
  refine (uvmunmap_keep rep hv (by rwa [entry]) (by rwa [entry]) absent).mono ?_
  intro _ h' rep'
  exact ⟨t.setLeaf v 0, rfl, rep', maps.setLeaf (by omega) 0 above⟩

theorem kernelPtes_trampoline (trapframe : ℕ) :
    kernelPtes ram trapframe (TRAMPOLINE / PGSIZE) =
      mkPte ram.trampoline (PTE_R ||| PTE_X ||| PTE_V) :=
  if_pos rfl

theorem kernelPtes_trapframe (trapframe : ℕ) :
    kernelPtes ram trapframe (TRAPFRAME / PGSIZE) = mkPte trapframe (PTE_R ||| PTE_W ||| PTE_V) := by
  rw [kernelPtes, if_neg (by decide), if_pos rfl]

theorem kernelPtes_zero {trapframe v : ℕ} (other : v ≠ TRAMPOLINE / PGSIZE)
    (other' : v ≠ TRAPFRAME / PGSIZE) : kernelPtes ram trapframe v = 0 := by
  rw [kernelPtes, if_neg other, if_neg other']

theorem procFreepagetable_follows {trapframe : ℕ} (rep : t.Repr ram h)
    (maps : t.Maps n F (kernelPtes ram trapframe)) (fits : trapframe < 2 ^ 52) {sz : ℕ}
    (hsz : pages sz = n) :
    (procFreepagetable t.root sz).Follows (owned ram) p h fun _ h' => h' = empty := by
  have fits' := ram.trampoline_fits
  have cleared : update (update (kernelPtes ram trapframe)
      (TRAMPOLINE / PGSIZE) 0) (TRAPFRAME / PGSIZE) 0 = fun _ => 0 := by
    funext v
    by_cases e : v = TRAPFRAME / PGSIZE
    · rw [e, update_self]
    · rw [update_of_ne e]
      by_cases e' : v = TRAMPOLINE / PGSIZE
      · rw [e', update_self]
      · rw [update_of_ne e', kernelPtes_zero e' e]
  rw [procFreepagetable]
  refine (uvmunmap_kernel (v := TRAMPOLINE / PGSIZE) rep maps (by decide) (by decide)
    (by rw [kernelPtes_trampoline, flags_mkPte fits']; decide)
    (by rw [kernelPtes_trampoline, flags_mkPte fits']; decide)).bind ?_
  rintro _ _ ⟨t₁, root₁, rep₁, maps₁⟩
  have other : update (kernelPtes ram trapframe) (TRAMPOLINE / PGSIZE) 0
      (TRAPFRAME / PGSIZE) = mkPte trapframe (PTE_R ||| PTE_W ||| PTE_V) := by
    rw [update_of_ne (by decide), kernelPtes_trapframe]
  rw [← root₁]
  refine (uvmunmap_kernel (v := TRAPFRAME / PGSIZE) rep₁ maps₁ (by decide) (by decide)
    (by rw [other, flags_mkPte fits]; decide) (by rw [other, flags_mkPte fits]; decide)).bind ?_
  rintro _ _ ⟨t₂, root₂, rep₂, maps₂⟩
  rw [cleared] at maps₂
  rw [← root₂]
  exact uvmfree_follows rep₂ maps₂ hsz

/-! ## Creating -/

def Table.bare (root : ℕ) : Table := ⟨root, fun _ => none, fun _ => none, fun _ => 0, fun _ => none⟩

theorem Table.bare_repr {root : ℕ} (inside : ram.first ≤ root ∧ root < ram.last) :
    (bare root).Repr ram (single root (fill 0)) := by
  have only {n : Node} {a : ℕ} (at' : (bare root).place n = some a) : n = .root ∧ a = root := by
    cases n with
    | root => exact ⟨rfl, (Option.some.inj at').symm⟩
    | mid | low | user => exact absurd at' nofun
  refine ⟨⟨fun _ there => absurd rfl there, fun _ there => absurd rfl there,
    fun _ there => absurd rfl there, fun _ there => absurd rfl there⟩, ⟨?_, ?_⟩, ?_⟩
  · intro n n' a at' at''
    rw [(only at').1, (only at'').1]
  · intro a x
    constructor
    · intro cell
      by_cases e : a = root
      · subst e
        rw [single, update_self, Option.some.injEq] at cell
        exact ⟨.root, rfl, fill_zero.symm.trans cell⟩
      · rw [single, update_of_ne e] at cell
        cases cell
    · rintro ⟨n, at', rfl⟩
      obtain ⟨rfl, rfl⟩ := only at'
      rw [single, update_self, fill_zero]
      rfl
  · intro a own
    by_cases e : a = root
    · exact e ▸ inside
    · rw [single, update_of_ne e] at own
      exact absurd rfl own

theorem Table.bare_maps (root : ℕ) (F : Flags → Prop) : (bare root).Maps 0 F fun _ => 0 where
  user v hv := absurd hv (Nat.not_lt_zero v)
  readable v hv := absurd hv (Nat.not_lt_zero v)
  flags v hv := absurd hv (Nat.not_lt_zero v)
  beyond _ _ := ⟨rfl, rfl⟩
  rest_zero _ _ := rfl

theorem procPagetable_follows (trapframe : ℕ) (F : Flags → Prop) :
    (procPagetable ram trapframe).Follows (owned ram) p empty fun r h' =>
      (r = none ∧ h' = empty) ∨ ∃ t : Table, r = some t.root ∧ t.Repr ram h' ∧
        t.Maps 0 F (kernelPtes ram trapframe) := by
  have fits := ram.trampoline_fits
  rw [procPagetable, uvmcreate]
  refine Prog.Follows.bind (R := fun r h' => (r = none ∧ h' = empty) ∨ ∃ root, r = some root ∧
    (bare root).Repr ram h') ?_ ?_
  · refine follows_kalloc.bind ?_
    rintro _ _ (⟨rfl, rfl⟩ | ⟨root, rfl, -, inside, rfl⟩)
    · exact .inl ⟨rfl, rfl⟩
    refine (follows_clear (by rw [update_self]; nofun)).bind ?_
    rintro _ _ rfl
    rw [update_idem]
    exact .inr ⟨root, rfl, bare_repr inside⟩
  rintro _ _ (⟨rfl, rfl⟩ | ⟨root, rfl, rep⟩)
  · exact .inl ⟨rfl, rfl⟩
  have maps := bare_maps root F
  have bare : has (flags ((bare root).leaf (TRAMPOLINE / PGSIZE))) PTE_V = false := by
    rw [bare, flags_zero, has_zero]
  refine (mappages_follows (v := TRAMPOLINE / PGSIZE) rep (by decide) bare _).bind ?_
  rintro _ h₁ ⟨t₁, grows₁, ⟨rfl, rep₁⟩ | ⟨rfl, rep₁⟩⟩
  · rw [if_neg Bool.false_ne_true, show root = t₁.root from grows₁.root.symm]
    refine (uvmfree_follows rep₁ (maps.same grows₁.same) (show pages 0 = 0 from rfl)).bind ?_
    rintro _ _ rfl
    exact .inl ⟨rfl, rfl⟩
  rw [if_pos rfl]
  have maps₁ := (maps.same grows₁.same).setLeaf (v := TRAMPOLINE / PGSIZE) zero_le
    (mkPte ram.trampoline (PTE_R ||| PTE_X ||| PTE_V)) (by decide)
  have entry : ∀ v, v ≠ TRAMPOLINE / PGSIZE → (t₁.setLeaf (TRAMPOLINE / PGSIZE)
      (mkPte ram.trampoline (PTE_R ||| PTE_X ||| PTE_V))).leaf v = 0 := by
    intro v ne
    rw [(maps₁.beyond v zero_le).2, update_of_ne ne]
  rw [show root = (t₁.setLeaf (TRAMPOLINE / PGSIZE)
    (mkPte ram.trampoline (PTE_R ||| PTE_X ||| PTE_V))).root from grows₁.root.symm]
  refine (mappages_follows (v := TRAPFRAME / PGSIZE) rep₁ (by decide)
    (by rw [entry _ (by decide)]; rfl) _).bind ?_
  rintro _ h₂ ⟨t₂, grows₂, ⟨rfl, rep₂⟩ | ⟨rfl, rep₂⟩⟩
  · rw [if_neg Bool.false_ne_true, ← grows₂.root]
    refine (uvmunmap_kernel (v := TRAMPOLINE / PGSIZE) rep₂ (maps₁.same grows₂.same) (by decide)
      (by decide) (by rw [update_self, flags_mkPte fits]; decide)
      (by rw [update_self, flags_mkPte fits]; decide)).bind ?_
    rintro _ _ ⟨t₃, root₃, rep₃, maps₃⟩
    rw [update_idem, update_eq_self_iff.mpr rfl] at maps₃
    rw [← root₃]
    refine (uvmfree_follows rep₃ maps₃ (show pages 0 = 0 from rfl)).bind ?_
    rintro _ _ rfl
    exact .inl ⟨rfl, rfl⟩
  · rw [if_pos rfl]
    have maps₂ := (maps₁.same grows₂.same).setLeaf (v := TRAPFRAME / PGSIZE) zero_le
      (mkPte trapframe (PTE_R ||| PTE_W ||| PTE_V)) (by decide)
    refine .inr ⟨t₂.setLeaf (TRAPFRAME / PGSIZE) (mkPte trapframe (PTE_R ||| PTE_W ||| PTE_V)),
      congrArg some grows₂.root.symm, rep₂, ?_⟩
    have kernel : update (update (fun _ => (0 : Pte)) (TRAMPOLINE / PGSIZE)
        (mkPte ram.trampoline (PTE_R ||| PTE_X ||| PTE_V))) (TRAPFRAME / PGSIZE)
        (mkPte trapframe (PTE_R ||| PTE_W ||| PTE_V)) = kernelPtes ram trapframe := by
      funext v
      by_cases e : v = TRAPFRAME / PGSIZE
      · rw [e, update_self, kernelPtes_trapframe]
      · rw [update_of_ne e]
        by_cases e' : v = TRAMPOLINE / PGSIZE
        · rw [e', update_self, kernelPtes_trampoline]
        · rw [update_of_ne e', kernelPtes_zero e' e]
    rw [kernel] at maps₂
    exact maps₂

/-! ## Copying -/

theorem or_valid : ∀ f : Flags, has f PTE_V → f ||| PTE_V = f := by decide

theorem splice_slice (x y : Page) : splice y 0 (slice x 0 PGSIZE) = x := by
  refine Bytes.ext_byte fun i hi => ?_
  have long : (slice x 0 PGSIZE).length = PGSIZE := by rw [slice, List.length_map, List.length_range]
  rw [splice, Bytes.byte_blit_in _ _ hi zero_le (by omega), Nat.sub_zero]
  simp [slice, hi]

variable {old : Table} {ho : Heap Page} {restO : ℕ → Pte}

theorem Table.Copied.maps (copied : old.Copied t t' k)
    (mapsO : old.Maps n F restO) (hk : k ≤ n) (maps : t.Maps 0 F rest) : t'.Maps k F rest where
  user v hv := by
    rw [(copied.copied v hv).1]
    exact mapsO.user v (by omega)
  readable v hv := by
    rw [(copied.copied v hv).2]
    exact mapsO.readable v (by omega)
  flags v hv := by
    rw [(copied.copied v hv).2]
    exact mapsO.flags v (by omega)
  beyond v hv := by
    rw [(copied.others v hv).1, (copied.others v hv).2]
    exact maps.beyond v zero_le
  rest_zero := maps.rest_zero

theorem Table.Copied.grows {t' t₁ : Table} (copied : old.Copied t t' k)
    (grows : t'.Grows t₁) : old.Copied t t₁ k where
  root := grows.root.trans copied.root
  copied v hv := by
    rw [grows.leaf, grows.user]
    exact copied.copied v hv
  others v hv := by
    rw [grows.leaf, grows.user]
    exact copied.others v hv

theorem Table.Copied.snoc {k pa : ℕ} {x : Page} (copied : old.Copied t t' k)
    (there : old.user k = some x) (valid : has (flags (old.leaf k)) PTE_V) (fits : pa < 2 ^ 52) :
    old.Copied t ((t'.setLeaf k (mkPte pa (flags (old.leaf k) ||| PTE_V))).setUser k (some x))
      (k + 1) where
  root := copied.root
  copied v hv := by
    by_cases e : v = k
    · rw [setUser_leaf, setUser_user, setLeaf_leaf, e, update_self,
        update_self, flags_mkPte fits, or_valid _ valid]
      exact ⟨there.symm, rfl⟩
    · rw [setUser_leaf, setUser_user, setLeaf_leaf, update_of_ne e, update_of_ne e, setLeaf_user]
      exact copied.copied v (by omega)
  others v hv := by
    have e : v ≠ k := by omega
    rw [setUser_leaf, setUser_user, setLeaf_leaf, update_of_ne e, update_of_ne e, setLeaf_user]
    exact copied.others v (by omega)

theorem uvmcopyFail_follows (rep : t'.Repr ram h) (mapsO : old.Maps n F restO)
    (hk : k ≤ n) (maps : t.Maps 0 F rest) (copied : old.Copied t t' k) :
    (uvmcopyFail t.root (k * PGSIZE)).Follows (owned ram) p h fun r h' =>
      r = false ∧ ∃ t'', t''.Repr ram h' ∧ t.Same t'' := by
  have maps' := copied.maps mapsO hk maps
  have lt := maps'.lt rep
  rw [uvmcopyFail, mul_div_page, ← copied.root]
  have unmap := uvmunmap_free (p := p) (a := 0) (n := k) rep
    (by simp only [TRAPFRAME, TRAMPOLINE, MAXVA, PGSIZE] at lt ⊢; omega)
    (fun v _ hv => ⟨maps'.user v (by omega), maps'.not_dir (by omega)⟩)
  rw [zero_mul] at unmap
  refine unmap.bind fun _ h' rep' => ⟨rfl, _, rep', copied.root, fun v => ?_, fun v => ?_⟩
  · rw [dropRange_leaf]
    split_ifs with inside
    · rw [(maps.beyond v zero_le).2, maps.rest_zero v (by omega)]
    · exact (copied.others v (by omega)).1
  · rw [dropRange_user]
    split_ifs with inside
    · exact (maps.beyond v zero_le).1.symm
    · exact (copied.others v (by omega)).2

theorem uvmcopyFrom_follows (repO : old.Repr ram ho) (mapsO : old.Maps n F restO)
    (maps : t.Maps 0 F rest) (j : ℕ) (hk : k + j = n) (rep : t'.Repr ram h)
    (apart : h.Apart ho) (copied : old.Copied t t' k) :
    (uvmcopyFrom old.root t.root j (k * PGSIZE)).Follows (owned ram) p (h.join ho) fun r =>
      Star (fun h' => ∃ t'', t''.Repr ram h' ∧
        ((r = false ∧ t.Same t'') ∨ (r = true ∧ old.Copied t t'' n))) (· = ho) := by
  induction j generalizing h t' k with
  | zero => exact ⟨h, ho, apart, rfl, ⟨t', rep, .inr ⟨rfl, hk ▸ copied⟩⟩, rfl⟩
  | succ j ih =>
    have inside : k < n := by omega
    have few := mapsO.lt repO
    have hv : k < MAXVA / PGSIZE := by
      simp only [TRAPFRAME, TRAMPOLINE, MAXVA, PGSIZE] at few ⊢
      omega
    have user := mapsO.user k inside
    have valid := repO.wf.user_valid k user
    obtain ⟨x, hx⟩ := Option.ne_none_iff_exists'.mp user
    obtain ⟨pg, there⟩ := repO.low_of_valid valid
    obtain ⟨own, entry⟩ := repO.entry there
    -- the old table is not touched by what happens to the new one
    have of_old {a : ℕ} {y : Page} {h' : Heap Page} (apart' : h'.Apart ho) (hy : ho a = some y) :
        h'.join ho a = some y := by
      rw [join_of_none (apart'.symm.left (by rw [hy]; nofun)), hy]
    have fail {t₁ : Table} {h₁ : Heap Page} (rep₁ : t₁.Repr ram h₁) (apart₁ : h₁.Apart ho)
        (copied₁ : old.Copied t t₁ k) :
        (uvmcopyFail t.root (k * PGSIZE)).Follows (owned ram) p (h₁.join ho) fun r =>
          Star (fun h' => ∃ t'', t''.Repr ram h' ∧
            ((r = false ∧ t.Same t'') ∨ (r = true ∧ old.Copied t t'' n))) (· = ho) := by
      refine ((uvmcopyFail_follows rep₁ mapsO (by omega) maps copied₁).frame (owned_local ram)
        apart₁).mono fun r h' post => post.mono_left ?_
      rintro _ ⟨rfl, t'', rep'', same⟩
      exact ⟨t'', rep'', .inl ⟨rfl, same⟩⟩
    rw [uvmcopyFrom, join_comm apart]
    refine ((walk_find repO (page_lt_maxva hv)).frame (owned_local ram) apart.symm).bind ?_
    rintro _ _ ⟨_, _, -, rfl, ⟨same, rfl⟩, same'⟩
    rw [same, same', mul_div_page, there, join_comm apart.symm]
    refine (follows_load (of_old apart own) _).bind ?_
    rintro _ _ ⟨rfl, rfl⟩
    rw [entry, valid, if_neg (by decide)]
    refine follows_kalloc.bind ?_
    rintro _ _ (⟨rfl, rfl⟩ | ⟨page, rfl, free, within, rfl⟩)
    · exact fail rep apart copied
    rw [update_fresh free]
    have apart₁ := apart.fresh free (fill 5)
    refine (follows_read (of_old apart₁ (repO.user_page hx)) _ _).bind ?_
    rintro bytes _ ⟨rfl, all⟩
    refine (follows_write (join_of_left (update_self ..)) _ _).bind ?_
    rintro _ _ rfl
    rw [all, splice_slice, update_join (by rw [update_self]; nofun) apart₁, update_idem]
    have fresh : h page = none := (join_eq_none.mp free).1
    have maps' := copied.maps mapsO (by omega) maps
    have unmapped : has (flags (t'.leaf k)) PTE_V = false := by
      rw [(maps'.beyond k (le_refl k)).2, maps.rest_zero k (by omega)]
      rfl
    rw [← copied.root]
    refine ((mappages_user rep fresh within hv unmapped _).frame (owned_local ram)
      (apart.fresh free x)).bind ?_
    rintro _ _ ⟨h₁, ho, apart', rfl, ⟨t₁, grows, ⟨rfl, h₂, rep₂, free₂, rfl⟩ | ⟨rfl, rep₁⟩⟩, rfl⟩
    · rw [if_neg Bool.false_ne_true]
      refine (follows_kfree (by
        rw [join_of_left (update_self ..)]
        nofun)).bind ?_
      rintro _ _ rfl
      rw [update_join (by rw [update_self]; nofun) apart', update_idem,
        ← free₂, update_eq_self, copied.root]
      have apart₂ : h₂.Apart ho := by
        have := apart'.update (a := page) (by rw [update_self]; nofun) none
        rwa [update_idem, ← free₂, update_eq_self] at this
      exact fail rep₂ apart₂ (copied.grows grows)
    · rw [if_pos rfl, copied.root, ← Nat.succ_mul]
      exact ih (by omega) rep₁ apart' ((copied.grows grows).snoc hx valid
        (lt_of_lt_of_le within.2 ram.last_le))

theorem uvmcopy_follows (repO : old.Repr ram ho) (mapsO : old.Maps n F restO) (maps : t.Maps 0 F rest)
    (rep : t.Repr ram h) (apart : h.Apart ho) {sz : ℕ} (hsz : pages sz = n) :
    (uvmcopy old.root t.root sz).Follows (owned ram) p (h.join ho) fun r =>
      Star (fun h' => ∃ t', t'.Repr ram h' ∧
        ((r = false ∧ t.Same t') ∨ (r = true ∧ old.Copied t t' n))) (· = ho) := by
  have start : old.Copied t t 0 :=
    ⟨rfl, fun v hv => absurd hv (Nat.not_lt_zero v), fun _ _ => ⟨rfl, rfl⟩⟩
  have copy := uvmcopyFrom_follows (p := p) repO mapsO maps n (zero_add n) rep apart start
  rw [zero_mul] at copy
  subst hsz
  exact copy

end

end Xv6.Vm
