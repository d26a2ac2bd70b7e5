import Xv6.Vm.Protect

/-!
# Page tables as finite maps, in memory

A page table in memory stands for a map from virtual page numbers to entries.  The calls that change a
page table change this map only as their comments in `vm.c` say, also where `kalloc` fails.
-/

namespace Xv6.Vm

open Function Table Option

/-! ## Entries -/

/-- `PA2PTE(pa)`. -/
def pa2pte (pa : BitVec 64) : Pte := (pa >>> 12) <<< 10

/-- `PTE2PA(pte)`. -/
def pteToPa (pte : Pte) : BitVec 64 := (pte >>> 10) <<< 12

theorem mkPte_eq (pa : BitVec 64) (f : Flags) :
    mkPte (pa.toNat / PGSIZE) f = pa2pte pa ||| f.setWidth 64 := by
  have small := pa.isLt
  have high : BitVec.ofNat 64 (2 ^ 10 * (pa.toNat / PGSIZE)) = pa2pte pa := by
    apply BitVec.eq_of_toNat_eq
    rw [pa2pte, BitVec.toNat_shiftLeft, BitVec.toNat_ushiftRight, BitVec.toNat_ofNat,
      Nat.shiftRight_eq_div_pow, Nat.shiftLeft_eq, mul_comm]
  rw [mkPte, high]

theorem pteToPa_pa2pte {pa : BitVec 64} (aligned : pa.toNat % PGSIZE = 0) (f : Flags) :
    pteToPa (pa2pte pa ||| f.setWidth 64) = pa := by
  have small := pa.isLt
  have bits := f.isLt
  have fits : pa.toNat / PGSIZE < 2 ^ 52 := by
    simp only [PGSIZE]
    omega
  apply BitVec.eq_of_toNat_eq
  rw [← mkPte_eq, pteToPa, BitVec.toNat_shiftLeft, BitVec.toNat_ushiftRight,
    Nat.shiftRight_eq_div_pow, Nat.shiftLeft_eq, toNat_mkPte fits]
  simp only [PGSIZE] at aligned ⊢
  omega

/-! ## Calls -/

/-- The calls that use or change a page table. -/
inductive VmCall where
  | walk (va : BitVec 64)
  | mappages (va size pa : BitVec 64) (perm : Flags)
  | uvmunmap (va npages : BitVec 64) (doFree : Bool)
  | uvmclear (va : BitVec 64)

/-- A map from virtual page numbers to entries, zero where there is none. -/
abbrev PageMap := ℕ → Pte

namespace VmCall

def prog (root : ℕ) : VmCall → MProg Bool
  | .walk va => do
      let pte ← Vm.walk root va.toNat true
      pure pte.isSome
  | .mappages va size pa perm =>
      Vm.mappages root va.toNat size.toNat (pa.toNat / PGSIZE) perm
  | .uvmunmap va npages doFree => do
      Vm.uvmunmap root va.toNat npages.toNat doFree
      pure true
  | .uvmclear va => do
      Vm.uvmclear root va.toNat
      pure true

def Touches (a b : BitVec 64) (v : ℕ) : Prop := a.toNat / PGSIZE ≤ v ∧ v ≤ b.toNat / PGSIZE

def Unmaps (va npages : BitVec 64) (v : ℕ) : Prop :=
  va.toNat ≤ v * PGSIZE ∧ v * PGSIZE < (va + npages * 4096#64).toNat

instance (a b : BitVec 64) (v : ℕ) : Decidable (Touches a b v) := inferInstanceAs (Decidable (_ ∧ _))

instance (va npages : BitVec 64) (v : ℕ) : Decidable (Unmaps va npages v) :=
  inferInstanceAs (Decidable (_ ∧ _))

def Effect : VmCall → PageMap → Bool → PageMap → Prop
  | .walk _, f, _, f' => f' = f
  | .mappages va size pa perm, f, true, f' => ∀ v, f' v =
      if Touches va (va + size - 1) v then
        pa2pte (pa + BitVec.ofNat 64 ((v - va.toNat / PGSIZE) * PGSIZE)) |||
          (perm ||| PTE_V).setWidth 64
      else f v
  | .mappages _ _ _ _, f, false, f' => ∀ v, has (flags (f v)) PTE_V → f' v = f v
  | .uvmunmap va npages _, f, _, f' => ∀ v, f' v = if Unmaps va npages v then 0 else f v
  | .uvmclear va, f, _, f' => ∀ v, f' v =
      if v = va.toNat / PGSIZE then f v &&& ~~~(PTE_U.setWidth 64) else f v

/-- What the calls do to the map, one after the other. -/
def Effects : List (VmCall × Bool) → PageMap → PageMap → Prop
  | [], f, f' => f' = f
  | (c, r) :: calls, f, f' => ∃ f₁, c.Effect f r f₁ ∧ Effects calls f₁ f'

/-- The call frees only pages in use that are not pages of the table, and each of them once. -/
def Frees (ram : Ram) (m : Mem) (t : Table) : VmCall → Prop
  | .uvmunmap va npages true =>
      (∀ v, Unmaps va npages v → ram.first ≤ pte2pa (t.leaf v) ∧ pte2pa (t.leaf v) < ram.last ∧
        pte2pa (t.leaf v) ∉ m.freelist ∧ ∀ n, t.place n ≠ some (pte2pa (t.leaf v))) ∧
      ∀ v w, Unmaps va npages v → Unmaps va npages w → pte2pa (t.leaf v) = pte2pa (t.leaf w) → v = w
  | _ => True

end VmCall

/-- The page table `t` is in memory, in pages that are not free. -/
def Mem.Holds (ram : Ram) (m : Mem) (t : Table) : Prop :=
  (∀ v, t.user v = none) ∧ ∃ h, t.Repr ram h ∧ m.Owns ram h

/-- Calls that ran one after the other, with their results. -/
inductive Session (ram : Ram) (root : ℕ) : Mem → List (VmCall × Bool) → Mem → Prop
  | nil (m : Mem) : Session ram root m [] m
  | call {m m₁ m₂ : Mem} {c : VmCall} {r : Bool} {calls : List (VmCall × Bool)}
      (run : (c.prog root).run (Mem.exec ram) m = (.ok r, m₁))
      (frees : ∀ t, m.Holds ram t → t.root = root → c.Frees ram m t)
      (rest : Session ram root m₁ calls m₂) : Session ram root m ((c, r) :: calls) m₂

section

variable {A : Panic → Prop} {ram : Ram} {p : ℕ} {h g : Heap Page} {t : Table}

/-- The heap is a page table without user pages whose map a call has changed from that of `t`. -/
def Called (ram : Ram) (t : Table) (c : VmCall) (r : Bool) (h : Heap Page) : Prop :=
  ∃ t' : Table, t'.root = t.root ∧ (∀ v, t'.user v = none) ∧ t'.Repr ram h ∧
    c.Effect t.leaf r t'.leaf

theorem walk_may (all : ∀ e, A e) (rep : t.Repr ram h) (va : ℕ) (alloc : Bool) :
    (walk t.root va alloc).Follows (may A ram) p h fun r h' =>
      va < MAXVA ∧ Walked ram t (va / PGSIZE) alloc r h' := by
  by_cases low : va < MAXVA
  · refine (may_of_owned (walk_follows rep low)).mono fun r h' walked => ⟨low, walked⟩
  · rw [walk, if_pos (not_lt.mp low)]
    exact may_panic (all _)

/-- The pages that the loop of `mappages` has mapped: the first `k`, none of which was mapped. -/
structure Mapped (t : Table) (perm : Flags) (v pa k : ℕ) (t' : Table) : Prop where
  root : t'.root = t.root
  user : ∀ w, t'.user w = none
  leaf : ∀ w, t'.leaf w = if v ≤ w ∧ w < v + k then mkPte ((pa + (w - v)) % 2 ^ 52) (perm ||| PTE_V)
    else t.leaf w
  unmapped : ∀ w, v ≤ w → w < v + k → has (flags (t.leaf w)) PTE_V = false

theorem Mapped.zero {t' : Table} (grows : t.Grows t') (bare : ∀ v, t.user v = none) (perm : Flags)
    (v pa : ℕ) : Mapped t perm v pa 0 t' := by
  refine ⟨grows.root, fun w => by rw [grows.user, bare], fun w => ?_, fun w _ _ => by omega⟩
  rw [if_neg (by omega), grows.leaf]

theorem Mapped.cons {t₁ t' : Table} {perm : Flags} {v pa k : ℕ} (fits : pa < 2 ^ 52)
    (grows : t.Grows t₁) (free : has (flags (t.leaf v)) PTE_V = false)
    (rest : Mapped (t₁.setLeaf v (mkPte pa (perm ||| PTE_V))) perm (v + 1) ((pa + 1) % 2 ^ 52) k t') :
    Mapped t perm v pa (k + 1) t' where
  root := rest.root.trans grows.root
  user := rest.user
  leaf w := by
    rw [rest.leaf, setLeaf_leaf, grows.leaf]
    by_cases first : w = v
    · subst first
      rw [if_neg (by omega), if_pos (by omega), update_self, Nat.sub_self, add_zero,
        Nat.mod_eq_of_lt fits]
    · rw [update_of_ne first]
      by_cases inside : v + 1 ≤ w ∧ w < v + 1 + k
      · rw [if_pos inside, if_pos (by omega)]
        congr 1
        omega
      · rw [if_neg inside, if_neg (by omega)]
  unmapped w lower upper := by
    by_cases first : w = v
    · rwa [first]
    · have := rest.unmapped w (by omega) (by omega)
      rwa [setLeaf_leaf, update_of_ne first, grows.leaf] at this

theorem mapPage_may (all : ∀ e, A e) {perm : Flags} {v pa : ℕ} {rest : MProg Bool}
    {Q : Bool → Heap Page → Prop} (rep : t.Repr ram h) (bare : ∀ v, t.user v = none)
    (fail : ∀ t₁ h', t.Grows t₁ → t₁.Repr ram h' → Q false h')
    (next : ∀ t₁ h', v < MAXVA / PGSIZE → has (flags (t.leaf v)) PTE_V = false → t.Grows t₁ →
      (t₁.setLeaf v (mkPte pa (perm ||| PTE_V))).Repr ram h' → rest.Follows (may A ram) p h' Q) :
    (walk t.root (v * PGSIZE) true >>= fun r => match r with
      | none => pure false
      | some (pg, i) => mem (.load pg i) >>= fun pte =>
          if has (flags pte) PTE_V then panic .mappagesRemap
          else mem (.store pg i (mkPte pa (perm ||| PTE_V))) >>= fun _ => rest).Follows
      (may A ram) p h Q := by
  refine (walk_may all rep _ true).bind ?_
  rintro r h' ⟨low, t₁, grows, rep₁, -, found⟩
  have hv : v < MAXVA / PGSIZE := by
    simp only [MAXVA, PGSIZE] at low ⊢
    omega
  rw [mul_div_page] at found
  match r, found with
  | none, _ => exact fail t₁ h' grows rep₁
  | some (pg, i), ⟨there, hi⟩ =>
    subst hi
    obtain ⟨own, entry⟩ := rep₁.entry there
    refine (may_of_owned (follows_load own _)).bind ?_
    rintro _ _ ⟨rfl, rfl⟩
    rw [entry, grows.leaf]
    cases valid : has (flags (t.leaf v)) PTE_V with
    | true => exact may_panic (all _)
    | false =>
      refine (may_of_owned (follows_store own _ _)).bind ?_
      rintro _ _ rfl
      refine next t₁ _ hv valid grows (rep₁.setLeaf there fun user => ?_)
      rw [grows.user, bare] at user
      exact absurd rfl user

theorem mappagesFrom_may (all : ∀ e, A e) (perm : Flags) (n : ℕ) {v pa : ℕ} (fits : pa < 2 ^ 52)
    (rep : t.Repr ram h) (bare : ∀ v, t.user v = none) :
    (mappagesFrom t.root perm n (v * PGSIZE) pa).Follows (may A ram) p h fun r h' =>
      ∃ t' k, t'.Repr ram h' ∧ Mapped t perm v pa k t' ∧
        (r = true → k = n + 1 ∧ v + n < MAXVA / PGSIZE) := by
  induction n generalizing h t v pa with
  | zero =>
    unfold mappagesFrom
    refine mapPage_may all rep bare
      (fun t₁ h' grows rep₁ => ⟨t₁, 0, rep₁, .zero grows bare .., by rintro ⟨⟩⟩) ?_
    intro t₁ h' hv free grows rep₁
    refine ⟨_, 1, rep₁, .cons fits grows free (.zero .refl (fun w => ?_) ..), fun _ => ⟨rfl, hv⟩⟩
    rw [setLeaf_user, grows.user, bare]
  | succ n ih =>
    unfold mappagesFrom
    refine mapPage_may all rep bare
      (fun t₁ h' grows rep₁ => ⟨t₁, 0, rep₁, .zero grows bare .., by rintro ⟨⟩⟩) ?_
    intro t₁ h' hv free grows rep₁
    have next : (v * PGSIZE + PGSIZE) % 2 ^ 64 = (v + 1) * PGSIZE := by
      simp only [MAXVA, PGSIZE] at hv ⊢
      omega
    have rest := ih (v := v + 1) (Nat.mod_lt (pa + 1) (by decide)) rep₁ fun w => by
      rw [setLeaf_user, grows.user, bare]
    rw [setLeaf_root, grows.root] at rest
    rw [next]
    refine rest.mono ?_
    rintro r h'' ⟨t', k, rep', mapped, success⟩
    refine ⟨t', k + 1, rep', .cons fits grows free mapped, fun hr => ?_⟩
    obtain ⟨rfl, below⟩ := success hr
    exact ⟨rfl, by omega⟩

theorem mkPte_add (pa : BitVec 64) (k : ℕ) (f : Flags) :
    mkPte ((pa.toNat / PGSIZE + k) % 2 ^ 52) f =
      pa2pte (pa + BitVec.ofNat 64 (k * PGSIZE)) ||| f.setWidth 64 := by
  have page : (pa + BitVec.ofNat 64 (k * PGSIZE)).toNat / PGSIZE =
      (pa.toNat / PGSIZE + k) % 2 ^ 52 := by
    rw [BitVec.toNat_add, BitVec.toNat_ofNat, Nat.add_mod_mod]
    simp only [PGSIZE]
    omega
  rw [← page, mkPte_eq]

theorem mappages_may (all : ∀ e, A e) (rep : t.Repr ram h) (bare : ∀ v, t.user v = none)
    (va size pa : BitVec 64) (perm : Flags) :
    ((VmCall.mappages va size pa perm).prog t.root).Follows (may A ram) p h
      (Called ram t (.mappages va size pa perm)) := by
  rw [VmCall.prog, mappages]
  have hva := va.isLt
  have hsize := size.isLt
  have hpa := pa.isLt
  by_cases empty : size.toNat = 0
  · rw [if_pos empty]
    exact may_panic (all _)
  rw [if_neg empty]
  have last : (va.toNat + size.toNat - 1) % 2 ^ 64 = (va + size - 1).toNat := by
    rw [BitVec.toNat_sub, BitVec.toNat_add, show (1 : BitVec 64).toNat = 1 from rfl]
    omega
  dsimp only
  rw [last, show pgrounddown va.toNat = va.toNat / PGSIZE * PGSIZE from rfl]
  have fits : pa.toNat / PGSIZE < 2 ^ 52 := by
    simp only [PGSIZE]
    omega
  refine (mappagesFrom_may all perm _ fits rep bare).mono ?_
  rintro r h' ⟨t', k, rep', mapped, success⟩
  refine ⟨t', mapped.root, mapped.user, rep', ?_⟩
  cases r with
  | false =>
    intro v valid
    rw [mapped.leaf, if_neg]
    rintro ⟨lower, upper⟩
    rw [mapped.unmapped v lower upper] at valid
    cases valid
  | true =>
    intro v
    obtain ⟨rfl, below⟩ := success rfl
    have hlast := (va + size - 1).isLt
    have range : (va.toNat / PGSIZE ≤ v ∧ v < va.toNat / PGSIZE +
        ((pgrounddown (va + size - 1).toNat + 2 ^ 64 - va.toNat / PGSIZE * PGSIZE) % 2 ^ 64 / PGSIZE
          + 1)) ↔ VmCall.Touches va (va + size - 1) v := by
      simp only [VmCall.Touches, pgrounddown, MAXVA, PGSIZE] at below ⊢
      omega
    rw [mapped.leaf]
    simp only [range, mkPte_add]

theorem Table.setUser_none {v : ℕ} (absent : t.user v = none) : t.setUser v none = t := by
  rw [setUser, ← absent, update_eq_self]

theorem unmapPage_may (all : ∀ e, A e) (rep : t.Repr ram h) (v : ℕ) (doFree : Bool)
    (own : doFree = true → has (flags (t.leaf v)) PTE_V → t.user v ≠ none)
    (keep : doFree = false → t.user v = none) :
    (unmapPage t.root doFree (v * PGSIZE)).Follows (may A ram) p h fun _ h' =>
      ((t.setUser v none).setLeaf v 0).Repr ram h' ∧ v < MAXVA / PGSIZE := by
  by_cases good : v < MAXVA / PGSIZE ∧ has (flags (t.leaf v)) PTE_V ∧ flags (t.leaf v) ≠ PTE_V
  · obtain ⟨hv, valid, leaf⟩ := good
    cases doFree with
    | true =>
      exact (may_of_owned (unmapPage_free rep hv leaf (own rfl valid))).mono
        fun _ _ rep' => ⟨rep', hv⟩
    | false =>
      rw [setUser_none (keep rfl)]
      exact (may_of_owned (unmapPage_keep rep hv valid leaf (keep rfl))).mono
        fun _ _ rep' => ⟨rep', hv⟩
  · -- in every other case one of the checks fails
    refine (walk_may all rep _ false).bind ?_
    rintro r h' ⟨low, t₁, -, rep₁, same, found⟩
    obtain rfl := same rfl
    obtain rfl := rep.unique rep₁
    have hv : v < MAXVA / PGSIZE := by
      simp only [MAXVA, PGSIZE] at low ⊢
      omega
    rw [mul_div_page] at found
    match r, found with
    | none, _ => exact may_panic (all _)
    | some (pg, i), ⟨there, hi⟩ =>
      subst hi
      obtain ⟨cell, entry⟩ := rep.entry there
      refine (may_of_owned (follows_load cell _)).bind ?_
      rintro _ _ ⟨rfl, rfl⟩
      rw [entry]
      by_cases valid : has (flags (t₁.leaf v)) PTE_V
      · have isDir : flags (t₁.leaf v) = PTE_V := not_not.mp fun leaf => good ⟨hv, valid, leaf⟩
        rw [if_neg (by rw [valid]; decide), if_pos isDir]
        exact may_panic (all _)
      · rw [if_pos (by simpa using valid)]
        exact may_panic (all _)

theorem uvmunmap_may (all : ∀ e, A e) (rep : t.Repr ram h) (va npages : BitVec 64) (doFree : Bool)
    (own : doFree = true → ∀ v, VmCall.Unmaps va npages v → has (flags (t.leaf v)) PTE_V →
      t.user v ≠ none)
    (keep : doFree = false → ∀ v, VmCall.Unmaps va npages v → t.user v = none) :
    (uvmunmap t.root va.toNat npages.toNat doFree).Follows (may A ram) p h fun _ h' =>
      ∃ a n, (∀ v, VmCall.Unmaps va npages v ↔ a ≤ v ∧ v < a + n) ∧
        (t.dropRange a n).Repr ram h' := by
  rw [uvmunmap]
  by_cases aligned : va.toNat % PGSIZE = 0
  swap
  · rw [if_pos aligned]
    exact may_panic (all _)
  rw [if_neg (not_not.mpr aligned)]
  have hva := va.isLt
  have last : (va.toNat + npages.toNat * PGSIZE) % 2 ^ 64 = (va + npages * 4096#64).toNat := by
    rw [BitVec.toNat_add, BitVec.toNat_mul, Nat.add_mod_mod]
    rfl
  obtain ⟨a, ha⟩ : ∃ a, va.toNat = a * PGSIZE :=
    ⟨_, (Nat.div_mul_cancel (Nat.dvd_of_mod_eq_zero aligned)).symm⟩
  have whole : (va + npages * 4096#64).toNat % PGSIZE = 0 := by
    rw [← last]
    simp only [PGSIZE] at aligned ⊢
    omega
  dsimp only
  rw [last, ha]
  have range (v : ℕ) : VmCall.Unmaps va npages v ↔
      a ≤ v ∧ v < a + ((va + npages * 4096#64).toNat - a * PGSIZE) / PGSIZE := by
    simp only [VmCall.Unmaps, ha, PGSIZE] at whole ⊢
    omega
  have loop := Prog.Follows.loop (P := may A ram) (p := p)
    (f := fun i => unmapPage t.root doFree (a * PGSIZE + i * PGSIZE))
    (J := fun i h' => (t.dropRange a i).Repr ram h')
    (((va + npages * 4096#64).toNat - a * PGSIZE) / PGSIZE) ?_
    (show (t.dropRange a 0).Repr ram h by rwa [dropRange_zero])
  · rw [zero_add] at loop
    exact loop.mono fun _ h' rep' => ⟨a, _, range, rep'⟩
  intro i h' _ upper rep'
  have kept : ¬(a ≤ a + i ∧ a + i < a + i) := by omega
  have leaf : (t.dropRange a i).leaf (a + i) = t.leaf (a + i) := if_neg kept
  have user : (t.dropRange a i).user (a + i) = t.user (a + i) := if_neg kept
  have inside := (range (a + i)).mpr (by omega)
  have step := unmapPage_may (p := p) all rep' (a + i) doFree
    (by rw [leaf, user]; exact fun free => own free _ inside)
    (by rw [user]; exact fun no => keep no _ inside)
  rw [dropRange_succ, add_mul] at step
  exact step.mono fun _ _ done => done.1

theorem uvmclear_may (all : ∀ e, A e) (rep : t.Repr ram h) (bare : ∀ v, t.user v = none) (va : ℕ) :
    (uvmclear t.root va).Follows (may A ram) p h fun _ h' =>
      (t.setLeaf (va / PGSIZE) (t.leaf (va / PGSIZE) &&& ~~~(PTE_U.setWidth 64))).Repr ram h' := by
  refine (walk_may all rep va false).bind ?_
  rintro r h' ⟨low, t₁, -, rep₁, same, found⟩
  obtain rfl := same rfl
  obtain rfl := rep.unique rep₁
  match r, found with
  | none, _ => exact may_panic (all _)
  | some (pg, i), ⟨there, hi⟩ =>
    subst hi
    obtain ⟨cell, entry⟩ := rep.entry there
    refine (may_of_owned (follows_load cell _)).bind ?_
    rintro _ _ ⟨rfl, rfl⟩
    refine (may_of_owned (follows_store cell _ _)).mono ?_
    rintro _ _ rfl
    rw [entry]
    exact rep.setLeaf there fun user => absurd (bare _) user

@[simps] def Table.withUser (t : Table) (f : ℕ → Option Page) : Table := { t with user := f }

theorem Table.Repr.adopt (rep : t.Repr ram h) (bare : ∀ v, t.user v = none) {f : ℕ → Option Page}
    (valid : ∀ v, f v ≠ none → has (flags (t.leaf v)) PTE_V)
    (inj : ∀ v w, f v ≠ none → f w ≠ none → pte2pa (t.leaf v) = pte2pa (t.leaf w) → v = w)
    (apart : ∀ v, f v ≠ none → h (pte2pa (t.leaf v)) = none)
    (inside : ∀ v, f v ≠ none → ram.first ≤ pte2pa (t.leaf v) ∧ pte2pa (t.leaf v) < ram.last) :
    ∃ h', (t.withUser f).Repr ram h' ∧
      ∀ a x, h' a = some x ↔ h a = some x ∨ ∃ v, f v = some x ∧ pte2pa (t.leaf v) = a := by
  classical
  have get {v : ℕ} {x : Page} (hx : f v = some x) : f v ≠ none := by
    rw [hx]
    nofun
  let g : Heap Page := fun a =>
    if e : ∃ v, f v ≠ none ∧ pte2pa (t.leaf v) = a then f e.choose else none
  have cells (a : ℕ) (x : Page) : g a = some x ↔ ∃ v, f v = some x ∧ pte2pa (t.leaf v) = a := by
    constructor
    · intro hx
      by_cases e : ∃ v, f v ≠ none ∧ pte2pa (t.leaf v) = a
      · rw [show g a = f e.choose from dif_pos e] at hx
        exact ⟨_, hx, e.choose_spec.2⟩
      · rw [show g a = none from dif_neg e] at hx
        cases hx
    · rintro ⟨v, hx, place⟩
      have e : ∃ v, f v ≠ none ∧ pte2pa (t.leaf v) = a := ⟨v, get hx, place⟩
      rw [show g a = f e.choose from dif_pos e,
        inj _ v e.choose_spec.1 (get hx) (e.choose_spec.2.trans place.symm), hx]
  have disjoint {a : ℕ} {x : Page} (hx : g a = some x) : h a = none := by
    obtain ⟨v, hv, rfl⟩ := (cells a x).mp hx
    exact apart v (get hv)
  have joined (a : ℕ) (x : Page) : h.join g a = some x ↔
      h a = some x ∨ ∃ v, f v = some x ∧ pte2pa (t.leaf v) = a := by
    rw [← cells]
    cases own : h a with
    | none => simp [Heap.join_of_none own]
    | some y =>
      rw [Heap.join_of_left own]
      refine ⟨.inl, fun either => either.resolve_right fun hx => ?_⟩
      rw [disjoint hx] at own
      cases own
  -- a node of the new table is a page-table page or one of the new user pages
  have split {n : Node} {a : ℕ} (at' : (t.withUser f).place n = some a) :
      t.place n = some a ∧ (t.withUser f).content n = t.content n ∨
        ∃ v, n = .user v ∧ f v ≠ none ∧ pte2pa (t.leaf v) = a := by
    cases n with
    | user v =>
      obtain ⟨x, hx, place⟩ := map_eq_some_iff.mp at'
      exact .inr ⟨v, rfl, get hx, place⟩
    | root | mid | low => exact .inl ⟨at', rfl⟩
  have differ {n : Node} {v : ℕ} (at' : t.place n = some (pte2pa (t.leaf v))) : f v = none := by
    by_contra hv
    exact rep.own at' (apart v hv)
  refine ⟨h.join g, ⟨⟨rep.wf.mid_lt, rep.wf.low_mid, rep.wf.leaf_low, valid⟩, ⟨?_, fun a x => ?_⟩, ?_⟩,
    joined⟩
  · intro n n' a at₁ at₂
    rcases split at₁ with ⟨old₁, -⟩ | ⟨v, rfl, hv, place₁⟩ <;>
      rcases split at₂ with ⟨old₂, -⟩ | ⟨w, rfl, hw, place₂⟩
    · exact rep.placed.inj n n' a old₁ old₂
    · exact absurd (differ (place₂.symm ▸ old₁)) hw
    · exact absurd (differ (place₁.symm ▸ old₂)) hv
    · rw [inj v w hv hw (place₁.trans place₂.symm)]
  · rw [joined, rep.placed.cells]
    constructor
    · rintro (⟨n, at', rfl⟩ | ⟨v, hx, place⟩)
      · refine ⟨n, ?_, ?_⟩ <;> cases n with
        | user v =>
          rw [place, bare] at at'
          cases at'
        | root | mid | low => first | exact at' | rfl
      · refine ⟨.user v, ?_, ?_⟩
        · rw [Table.place, Table.withUser_user, hx, map_some, Table.withUser_leaf, place]
        · rw [content, withUser_user, hx, getD_some]
    · rintro ⟨n, at', rfl⟩
      rcases split at' with ⟨old, same⟩ | ⟨v, rfl, hv, place⟩
      · exact .inl ⟨n, old, same.symm⟩
      · obtain ⟨x, hx⟩ := ne_none_iff_exists'.mp hv
        refine .inr ⟨v, ?_, place⟩
        rw [content, withUser_user, hx, getD_some]
  · intro a own
    obtain ⟨x, hx⟩ := ne_none_iff_exists'.mp own
    rcases (joined a x).mp hx with old | ⟨v, hv, rfl⟩
    · exact rep.within a (by rw [old]; nofun)
    · exact inside v (get hv)

variable {m m' : Mem} {c : VmCall} {r : Bool}

theorem VmCall.follows (all : ∀ e, A e) (rep : t.Repr ram h) (bare : ∀ v, t.user v = none)
    (c : VmCall) (keeps : ∀ va n, c ≠ .uvmunmap va n true) :
    (c.prog t.root).Follows (may A ram) p h (Called ram t c) := by
  cases c with
  | walk va =>
    refine (walk_may all rep _ true).bind ?_
    rintro r h' ⟨-, t', grows, rep', -, -⟩
    exact ⟨t', grows.root, fun v => by rw [grows.user, bare], rep', grows.leaf⟩
  | mappages va size pa perm => exact mappages_may all rep bare va size pa perm
  | uvmclear va =>
    refine (uvmclear_may all rep bare _).bind fun _ h' rep' => ⟨_, ?_, ?_, rep', fun v => ?_⟩
    · rfl
    · exact bare
    by_cases e : v = va.toNat / PGSIZE
    · rw [if_pos e, e, setLeaf_leaf, update_self]
    · rw [if_neg e, setLeaf_leaf, update_of_ne e]
  | uvmunmap va npages doFree =>
    cases doFree with
    | true => exact absurd rfl (keeps va npages)
    | false =>
      refine (uvmunmap_may all rep va npages false nofun fun _ v _ => bare v).bind ?_
      rintro _ h' ⟨a, n, range, rep'⟩
      refine ⟨t.dropRange a n, rfl, fun v => ?_, rep', fun v => ?_⟩
      · rw [dropRange_user, bare, ite_self]
      · simp only [dropRange_leaf, range]

theorem Mem.Owns.adopt (owns : m.Owns ram h) (rep : t.Repr ram h) (bare : ∀ v, t.user v = none)
    {va npages : BitVec 64} (frees : (VmCall.uvmunmap va npages true).Frees ram m t) :
    ∃ f h', (t.withUser f).Repr ram h' ∧ m.Owns ram h' ∧
      ∀ v, f v ≠ none ↔ VmCall.Unmaps va npages v ∧ has (flags (t.leaf v)) PTE_V := by
  obtain ⟨used, once⟩ := frees
  let f (v : ℕ) : Option Page :=
    if VmCall.Unmaps va npages v ∧ has (flags (t.leaf v)) PTE_V then
      some (m.page (pte2pa (t.leaf v)))
    else none
  have there (v : ℕ) : f v ≠ none ↔ VmCall.Unmaps va npages v ∧ has (flags (t.leaf v)) PTE_V := by
    by_cases e : VmCall.Unmaps va npages v ∧ has (flags (t.leaf v)) PTE_V
    · rw [show f v = _ from if_pos e]
      exact ⟨fun _ => e, fun _ => nofun⟩
    · rw [show f v = _ from if_neg e]
      exact ⟨fun no => absurd rfl no, fun yes => absurd yes e⟩
  obtain ⟨h', rep', cells⟩ := rep.adopt bare (f := f)
    (fun v hv => ((there v).mp hv).2)
    (fun v w hv hw => once v w ((there v).mp hv).1 ((there w).mp hw).1)
    (fun v hv => by
      by_contra own
      obtain ⟨n, at'⟩ := rep.placed.own_iff.mp own
      exact (used v ((there v).mp hv).1).2.2.2 n at')
    (fun v hv => ⟨(used v ((there v).mp hv).1).1, (used v ((there v).mp hv).1).2.1⟩)
  refine ⟨f, h', rep', ⟨fun a x hx => ?_, owns.nodup, fun a free => ⟨?_, (owns.free a free).2⟩,
    rep'.within⟩, there⟩
  · rcases (cells a x).mp hx with old | ⟨v, hv, rfl⟩
    · exact owns.agree a x old
    · rw [show f v = _ from if_pos ((there v).mp (by rw [hv]; nofun))] at hv
      exact some.inj hv
  · by_contra own
    obtain ⟨x, hx⟩ := ne_none_iff_exists'.mp own
    rcases (cells a x).mp hx with old | ⟨v, hv, rfl⟩
    · rw [(owns.free a free).1] at old
      cases old
    · exact (used v ((there v).mp (by rw [hv]; nofun)).1).2.2.1 free

/-- Every call that returns changes the map as it should. -/
theorem VmCall.effect (holds : m.Holds ram t) (frees : c.Frees ram m t)
    (run : (c.prog t.root).run (Mem.exec ram) m = (.ok r, m')) :
    ∃ t' : Table, m'.Holds ram t' ∧ t'.root = t.root ∧ c.Effect t.leaf r t'.leaf := by
  obtain ⟨bare, h, rep, owns⟩ := holds
  have finish {h : Heap Page} (owns : m.Owns ram h)
      (follows : (c.prog t.root).Follows (may (fun _ => True) ram) 0 h (Called ram t c)) :
      ∃ t' : Table, m'.Holds ram t' ∧ t'.root = t.root ∧ c.Effect t.leaf r t'.leaf := by
    have ended := run_may follows owns
    rw [run] at ended
    obtain ⟨h', ⟨t', root, bare', rep', effect⟩, owns', -⟩ := ended
    exact ⟨t', ⟨bare', h', rep', owns'⟩, root, effect⟩
  by_cases keeps : ∀ va n, c ≠ .uvmunmap va n true
  · exact finish owns (c.follows (fun _ => trivial) rep bare keeps)
  · simp only [not_forall, not_not] at keeps
    obtain ⟨va, npages, rfl⟩ := keeps
    obtain ⟨f, h', rep', owns', there⟩ := owns.adopt rep bare frees
    refine finish owns' ?_
    have unmap := uvmunmap_may (p := 0) (A := fun _ => True) (fun _ => trivial) rep' va npages
      true (fun _ v inside valid => (there v).mpr ⟨inside, valid⟩) nofun
    refine unmap.bind ?_
    rintro _ h'' ⟨a, n, range, rep''⟩
    refine ⟨(t.withUser f).dropRange a n, rfl, fun v => ?_, rep'', fun v => ?_⟩
    · by_cases inside : a ≤ v ∧ v < a + n
      · rw [dropRange_user, if_pos inside]
      · rw [dropRange_user, if_neg inside, withUser_user]
        by_contra user
        exact inside ((range v).mp ((there v).mp user).1)
    · simp only [dropRange_leaf, withUser_leaf, range]

theorem walk_finds (holds : m.Holds ram t) {va : ℕ} (hva : va < MAXVA) :
    ∃ r, (walk t.root va false).run (Mem.exec ram) m = (.ok r, m) ∧
      r.elim 0 (fun e => pte (m.page e.1) e.2) = t.leaf (va / PGSIZE) := by
  obtain ⟨-, h, rep, owns⟩ := holds
  obtain ⟨r, m', h', run, ⟨rfl, rfl⟩, -, -⟩ := run_owned (walk_find (p := 0) rep hva) owns
  obtain rfl : m' = m := by
    have same := run_reads ram (walk_reads t.root va) m
    rwa [run] at same
  refine ⟨_, run, ?_⟩
  cases there : t.low (va / PGSIZE / 512) with
  | none =>
    by_contra entry
    exact rep.wf.leaf_low _ (fun zero => entry zero.symm) there
  | some pg =>
    obtain ⟨own, entry⟩ := rep.entry there
    rw [map_some, elim_some, owns.agree _ _ own, entry]

/-- In every sequence of calls on a page table in memory, `walk` finds the entries of an abstract map
that every call changes as it should, and `PTE2PA` recovers the address of every page. -/
theorem page_table_refines (holds : m.Holds ram t) {calls : List (VmCall × Bool)}
    (session : Session ram t.root m calls m') :
    (∃ t' : Table, m'.Holds ram t' ∧ t'.root = t.root ∧ VmCall.Effects calls t.leaf t'.leaf ∧
      ∀ va < MAXVA, ∃ r, (walk t.root va false).run (Mem.exec ram) m' = (.ok r, m') ∧
        r.elim 0 (fun e => pte (m'.page e.1) e.2) = t'.leaf (va / PGSIZE)) ∧
    ∀ (pa : BitVec 64) (f : Flags), pa.toNat % PGSIZE = 0 → pa.toNat < 2 ^ 56 →
      pteToPa (pa2pte pa ||| f.setWidth 64) = pa := by
  refine ⟨?_, fun pa f aligned _ => pteToPa_pa2pte aligned f⟩
  generalize hroot : t.root = root at session
  induction session generalizing t with
  | nil m =>
    subst hroot
    exact ⟨t, holds, rfl, rfl, fun va hva => walk_finds holds hva⟩
  | call run frees rest ih =>
    subst hroot
    obtain ⟨t₁, holds₁, root₁, effect⟩ := VmCall.effect holds (frees t holds rfl) run
    obtain ⟨t', holds', root', effects, finds⟩ := ih holds₁ root₁
    exact ⟨t', holds', root', ⟨t₁.leaf, effect, effects⟩, finds⟩

end

/-- A memory whose page 10 is an empty page table and whose pages 11 and 12 are free. -/
def bareMem : Mem := ⟨fun _ => fill 0, [11, 12], []⟩

theorem bareMem_holds : bareMem.Holds textRam (bare 10) := by
  refine ⟨fun _ => rfl, _, bare_repr ⟨by decide, by decide⟩, ?_, by decide, ?_, ?_⟩
  · intro a x hx
    by_cases e : a = 10
    · rw [e, Heap.single, update_self] at hx
      exact some.inj hx
    · rw [Heap.single, update_of_ne e] at hx
      cases hx
  · intro a there
    rcases List.mem_pair.mp there with rfl | rfl
    · exact ⟨rfl, by decide, by decide⟩
    · exact ⟨rfl, by decide, by decide⟩
  · exact (bare_repr ⟨by decide, by decide⟩).within

/-- Mapping the first virtual page of an empty page table to page 13. -/
theorem page_table_refines_bareMem : ∃ m' t',
    Session textRam 10 bareMem [(.mappages 0 4096 (13 * 4096) PTE_R, true)] m' ∧
      m'.Holds textRam t' ∧ t'.leaf 0 = mkPte 13 (PTE_R ||| PTE_V) := by
  have mapped : (match ((mappages 10 0 4096 13 PTE_R).run (Mem.exec textRam) bareMem).1 with
    | .ok r => r
    | .error _ => false) = true := by
    decide +kernel
  obtain ⟨-, h, rep, owns⟩ := bareMem_holds
  have follows : (mappages 10 (0 * PGSIZE) PGSIZE 13 PTE_R).Follows (owned textRam) 0 h _ :=
    mappages_follows rep (by decide) rfl PTE_R
  obtain ⟨r, m', -, run, -, -, -⟩ := run_owned follows owns
  rw [show (mappages 10 0 4096 13 PTE_R).run _ bareMem = (.ok r, m') from run] at mapped
  cases mapped
  have session : Session textRam (bare 10).root bareMem
      [(.mappages 0 4096 (13 * 4096) PTE_R, true)] m' := .call run (fun _ _ _ => trivial) (.nil m')
  obtain ⟨⟨t', holds', -, ⟨_, effect, rfl⟩, -⟩, -⟩ := page_table_refines bareMem_holds session
  exact ⟨m', t', session, holds', (effect 0).trans (by decide)⟩

end Xv6.Vm
